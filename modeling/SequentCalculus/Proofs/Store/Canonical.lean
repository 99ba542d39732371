import SequentCalculus.Proofs.Semantics

/-!
# Canonical formulas

An expression may be built at any time of a store's life, and other expressions before and after
it.  The formula that comes of it is always the same, and it is the formula of no expression with
another normal form.

* A builder that was called once is settled (`Settled`): whatever the store grows to, it returns the
  same formula again and adds nothing.  A node that is there is found, so interning is settled after
  the first time, and every other builder is a sequence of interning steps, each of which was
  settled before the next one began.
* The store grows linearly in what is written: one builder adds three nodes at most, those of an
  expanded equivalence (`size_binary_le`), and an expression three for each of its own nodes
  (`size_build_le`).  The trees of the formulas do not: an expanded equivalence holds each of its
  operands twice, and shares them.
* What can be asked about a formula is answered from its node, which never changes
  (`WellFormed.node?_eq_of_extends`).
-/

namespace SequentCalculus

/-- The number of nodes of an expression, its leaves included. -/
def Expr.size : Expr → Nat
  | .falsum => 1
  | .verum => 1
  | .atom _ => 1
  | .not a => a.size + 1
  | .binary _ a b => a.size + b.size + 1

namespace Policy

/-- The node that the policy interns for a negation. -/
def notNode (policy : Policy) (a : Formula) : Node :=
  match policy.negation with
  | .asImplication => .binary .implies a .falsum
  | .keep => .not a
  | .fromImplication => .not a

/-- The node that the policy interns for an implication. -/
def impliesNode (policy : Policy) (a b : Formula) : Node :=
  if policy.negation = .fromImplication ∧ b = .falsum then .not a else .binary .implies a b

end Policy

namespace Store

variable {s t : Store} {a b f : Formula} {node : Node}

/-! ### Building again -/

/-- From the store `s` on, the builder returns `f` and adds nothing. -/
def Settled (s : Store) (builder : Store → Formula × Store) (f : Formula) : Prop :=
  ∀ t : Store, t.WellFormed → s.Extends t → builder t = (f, t)

/-- The formula that interning returns has the node that was asked for. -/
theorem node?_intern (hs : s.WellFormed) (hwf : (s.intern node).2.WellFormed) :
    (s.intern node).2.node? (s.intern node).1 = some node := by
  rw [hwf.node?_eq_some_iff]
  rcases hs.intern_cases node with ⟨f, hget, hkind, heq⟩ | ⟨-, heq⟩
  · rw [heq]
    exact ⟨hget, hkind⟩
  · rw [heq, nodes_add]
    exact ⟨Array.getElem?_push_size, rfl⟩

theorem settled_intern (hs : s.WellFormed) (hwf : (s.intern node).2.WellFormed) :
    (s.intern node).2.Settled (·.intern node) (s.intern node).1 := by
  intro t ht hext
  exact ht.intern_eq (hwf.node?_extend ht hext (node?_intern hs hwf))

theorem not_eq_intern (s : Store) (a : Formula) : s.not a = s.intern (s.policy.notNode a) := by
  unfold Store.not Policy.notNode
  cases s.policy.negation <;> rfl

theorem implies_eq_intern (s : Store) (a b : Formula) :
    s.implies a b = s.intern (s.policy.impliesNode a b) := by
  unfold Store.implies Policy.impliesNode
  split <;> rfl

theorem settled_not (hs : s.WellFormed) (ha : s.Owns a) :
    (s.not a).2.Settled (·.not a) (s.not a).1 := by
  obtain ⟨hext, hwf, -, -⟩ := yields_not hs ha
  intro t ht hst
  show t.not a = _
  rw [not_eq_intern, hst.policy, hext.policy]
  rw [not_eq_intern] at hwf hst ⊢
  exact settled_intern hs hwf t ht hst

theorem settled_implies (hs : s.WellFormed) (ha : s.Owns a) (hb : s.Owns b) :
    (s.implies a b).2.Settled (·.implies a b) (s.implies a b).1 := by
  obtain ⟨hext, hwf, -, -⟩ := yields_implies hs ha hb
  intro t ht hst
  show t.implies a b = _
  rw [implies_eq_intern, hst.policy, hext.policy]
  rw [implies_eq_intern] at hwf hst ⊢
  exact settled_intern hs hwf t ht hst

theorem settled_iff (hs : s.WellFormed) (ha : s.Owns a) (hb : s.Owns b) :
    (s.iff a b).2.Settled (·.iff a b) (s.iff a b).1 := by
  obtain ⟨hext, hwf, -, -⟩ := yields_iff hs ha hb
  intro t ht hst
  have hpolicy : t.policy = s.policy := hst.policy.trans hext.policy
  show t.iff a b = _
  unfold Store.iff at hwf hst ⊢
  rw [hpolicy]
  cases hequiv : s.policy.equivalence with
  | keep =>
    simp only [hequiv] at hwf hst
    exact settled_intern hs hwf t ht hst
  | expand =>
    simp only [hequiv] at hwf hst
    -- both implications and their conjunction were settled one after the other
    have hforward := yields_implies hs ha hb
    have hbackward := yields_implies hforward.wellFormed (hb.extend hforward.extend)
      (ha.extend hforward.extend)
    have hand := yields_intern (.binary .and (s.implies a b).1 ((s.implies a b).2.implies b a).1)
      hbackward.wellFormed
      (by simpa [Node.parts] using ⟨hforward.owns.extend hbackward.extend, hbackward.owns⟩) trivial
    have hsecond := settled_implies hforward.wellFormed (hb.extend hforward.extend)
      (ha.extend hforward.extend) t ht (hand.extend.trans hst)
    have hfirst := settled_implies hs ha hb t ht
      (hbackward.extend.trans (hand.extend.trans hst))
    simp only [hfirst, hsecond]
    exact settled_intern hbackward.wellFormed hwf t ht hst

theorem settled_binary (hs : s.WellFormed) (op : BinOp) (ha : s.Owns a) (hb : s.Owns b) :
    (s.binary op a b).2.Settled (·.binary op a b) (s.binary op a b).1 := by
  have hwf := (yields_binary hs op ha hb).wellFormed
  cases op with
  | and => exact settled_intern hs hwf
  | or => exact settled_intern hs hwf
  | implies => exact settled_implies hs ha hb
  | iff => exact settled_iff hs ha hb

/-- **An expression that was built is settled.** -/
theorem settled_build (hs : s.WellFormed) (e : Expr) :
    (e.build s).2.Settled (e.build ·) (e.build s).1 := by
  induction e generalizing s with
  | falsum => exact fun t _ _ => rfl
  | verum => exact fun t _ _ => rfl
  | atom name => exact settled_intern hs (yields_atom hs name).wellFormed
  | not a ih =>
    have ha := yields_build hs a
    have hnot := yields_not ha.wellFormed ha.owns
    intro t ht hst
    have hinner := ih hs t ht (hnot.extend.trans hst)
    simp only [Expr.build, hinner]
    exact settled_not ha.wellFormed ha.owns t ht hst
  | binary op a b iha ihb =>
    have ha := yields_build hs a
    have hb := yields_build ha.wellFormed b
    have hop := yields_binary hb.wellFormed op (ha.owns.extend hb.extend) hb.owns
    intro t ht hst
    -- the right operand is built in the store that the left one leaves, which is `t` again
    have hleft := iha hs t ht (hb.extend.trans (hop.extend.trans hst))
    have hright := ihb ha.wellFormed t ht (hop.extend.trans hst)
    simp only [Expr.build, hleft, hright]
    exact settled_binary hb.wellFormed op (ha.owns.extend hb.extend) hb.owns t ht hst

/-! ### Growth -/

theorem size_intern_le (s : Store) (node : Node) : (s.intern node).2.size ≤ s.size + 1 := by
  unfold intern
  split
  · exact Nat.le_succ _
  · have hnodes := nodes_add s node
    simp only [size, hnodes, Array.size_push]
    exact Nat.le_refl _

theorem size_not_le (s : Store) (a : Formula) : (s.not a).2.size ≤ s.size + 1 := by
  rw [not_eq_intern]
  exact size_intern_le s _

theorem size_implies_le (s : Store) (a b : Formula) : (s.implies a b).2.size ≤ s.size + 1 := by
  rw [implies_eq_intern]
  exact size_intern_le s _

/-- A binary connective adds three nodes at most, those of an expanded equivalence. -/
theorem size_binary_le (s : Store) (op : BinOp) (a b : Formula) :
    (s.binary op a b).2.size ≤ s.size + 3 := by
  cases op with
  | and => exact Nat.le_trans (size_intern_le s _) (by omega)
  | or => exact Nat.le_trans (size_intern_le s _) (by omega)
  | implies => exact Nat.le_trans (size_implies_le s a b) (by omega)
  | iff =>
    show (s.iff a b).2.size ≤ s.size + 3
    unfold Store.iff
    split
    · exact Nat.le_trans (size_intern_le s _) (by omega)
    · have hforward := size_implies_le s a b
      have hbackward := size_implies_le (s.implies a b).2 b a
      have hand := size_intern_le ((s.implies a b).2.implies b a).2
        (.binary .and (s.implies a b).1 ((s.implies a b).2.implies b a).1)
      show (intern _ _).2.size ≤ s.size + 3
      omega

/-- **Growth is linear**: three nodes at most for each node of the expression. -/
theorem size_build_le (s : Store) (e : Expr) : (e.build s).2.size ≤ s.size + 3 * e.size := by
  induction e generalizing s with
  | falsum => exact Nat.le_add_right _ _
  | verum => exact Nat.le_add_right _ _
  | atom name =>
    have hatom := size_intern_le s (.atom name)
    show (s.intern (.atom name)).2.size ≤ s.size + 3 * 1
    omega
  | not a ih =>
    have ha := ih s
    have hnot := size_not_le (a.build s).2 (a.build s).1
    show ((a.build s).2.not (a.build s).1).2.size ≤ s.size + 3 * (a.size + 1)
    omega
  | binary op a b iha ihb =>
    have ha := iha s
    have hb := ihb (a.build s).2
    have hop := size_binary_le (b.build (a.build s).2).2 op (a.build s).1
      (b.build (a.build s).2).1
    show ((b.build (a.build s).2).2.binary op (a.build s).1 (b.build (a.build s).2).1).2.size ≤
      s.size + 3 * (a.size + b.size + 1)
    omega

/-! ### Canonicity -/

/-- **Interning is canonical.**  Let the normal form of an expression be the tree in which the
policy builds it, with the names of the constants for the constants.

* The formula that comes of an expression stands for its normal form.
* Two expressions that are built one after the other, with any interning in between, give the same
  formula if and only if they have the same normal form.
* To build an expression again adds nothing, also after other formulas were interned.
* To build an expression adds three nodes at most for each of its own.
* It leaves the older formulas as they are: their kinds, names, connectives and parts. -/
theorem building_is_canonical (policy : Policy) {falseName trueName : String}
    (hne : falseName ≠ trueName) :
    ∃ fresh, withConstants policy falseName trueName = .ok fresh ∧
      ∀ s : Store, fresh.Grows s → ∀ e : Expr,
        ((e.build s).2.Owns (e.build s).1 ∧
          (e.build s).2.tree (e.build s).1 =
            Expr.normal policy (.atom falseName) (.atom trueName) e) ∧
        (∀ t : Store, (e.build s).2.Grows t → ∀ e' : Expr, (e.build s).1 = (e'.build t).1 ↔
          Expr.normal policy (.atom falseName) (.atom trueName) e =
            Expr.normal policy (.atom falseName) (.atom trueName) e') ∧
        (∀ t : Store, (e.build s).2.Grows t → e.build t = ((e.build s).1, t)) ∧
        (e.build s).2.size ≤ s.size + 3 * e.size ∧
        ∀ f, s.Owns f → (e.build s).2.Owns f ∧ (e.build s).2.name? f = s.name? f ∧
          (e.build s).2.connective? f = s.connective? f ∧ (e.build s).2.parts f = s.parts f := by
  have hfresh : withConstants policy falseName trueName =
      .ok (constants policy falseName trueName) := if_neg hne
  refine ⟨_, hfresh, fun s hgrows e => ?_⟩
  have hwf := wellFormed_withConstants hfresh
  -- every store of the history has the policy and the constants of the fresh one
  have hyields : ∀ t : Store, (constants policy falseName trueName).Grows t → ∀ e : Expr,
      t.Yields (Expr.normal policy (.atom falseName) (.atom trueName) e) (e.build t) := by
    intro t ht e
    obtain ⟨hext, htwf⟩ := ht.extend_wellFormed hwf
    obtain ⟨hfalsum, hverum⟩ := tree_constants hfresh hwf htwf hext
    have hbuild := yields_build htwf e
    rwa [hfalsum, hverum, hext.policy, (withConstants_eq_ok hfresh).2.1] at hbuild
  have hs := (hgrows.extend_wellFormed hwf).2
  have he := hyields s hgrows e
  refine ⟨⟨he.owns, he.tree⟩, fun t ht e' => ?_, fun t ht => ?_, size_build_le s e, fun f hf => ?_⟩
  · obtain ⟨hext, htwf⟩ := ht.extend_wellFormed he.wellFormed
    have he' := hyields t (hgrows.trans ((grows_build hs e).trans ht)) e'
    -- both formulas are compared by their trees in the last store
    have hext' := hext.trans he'.extend
    have htree := he.wellFormed.tree_extend he'.wellFormed hext' he.owns
    rw [← he.tree, ← htree, ← he'.tree]
    exact ⟨fun h => by rw [h], he'.wellFormed.tree_inj (he.owns.extend hext') he'.owns⟩
  · obtain ⟨hext, htwf⟩ := ht.extend_wellFormed he.wellFormed
    exact settled_build hs e t htwf hext
  · have hnode := hs.node?_eq_of_extends he.wellFormed he.extend hf
    refine ⟨hf.extend he.extend, ?_, ?_, ?_⟩
    · unfold name?
      rw [hnode]
    · unfold connective?
      rw [hnode]
    · unfold parts
      rw [hnode]

/-- `p <=> false` is built in a store that already holds `q`, where equivalences are expanded and
implications to the false constant become negations.  After `r` was interned, `~p & (F -> p)` gives
the same formula, `F` being the name of the false constant, and `(F -> p) & ~p` another one. -/
theorem building_is_canonical_for_expansion :
    "F" ≠ "T" ∧ ∃ fresh, withConstants ⟨.fromImplication, .expand⟩ "F" "T" = .ok fresh ∧
      let s := (fresh.atom "q").2
      let equivalence : Expr := .binary .iff (.atom "p") .falsum
      let negation : Expr := .not (.atom "p")
      let implication : Expr := .binary .implies (.atom "F") (.atom "p")
      let built := equivalence.build s
      let t := (built.2.atom "r").2
      built.1 = (Expr.build t (.binary .and negation implication)).1 ∧
        built.1 ≠ (Expr.build t (.binary .and implication negation)).1 ∧
        equivalence.build t = (built.1, t) ∧ built.2.size ≤ s.size + 9 ∧
        built.2.name? ⟨2, .atomic⟩ = some "q" := by
  have hne : "F" ≠ "T" := by decide
  refine ⟨hne, ?_⟩
  obtain ⟨fresh, hfresh, hcanonical⟩ := building_is_canonical ⟨.fromImplication, .expand⟩ hne
  obtain rfl : constants ⟨.fromImplication, .expand⟩ "F" "T" = fresh := Except.ok.inj hfresh
  refine ⟨_, hfresh, ?_⟩
  intro s equivalence negation implication built t
  obtain ⟨-, hsame, hagain, hsize, hold⟩ := hcanonical s (.single (.atom _ "q")) equivalence
  have ht : built.2.Grows t := .single (.atom _ "r")
  refine ⟨(hsame t ht _).2 (by decide), mt (hsame t ht _).1 (by decide), hagain t ht, hsize, ?_⟩
  exact (hold ⟨2, .atomic⟩ (by decide)).2.1.trans (by decide)

end Store

end SequentCalculus
