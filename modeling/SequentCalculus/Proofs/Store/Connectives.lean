import SequentCalculus.Proofs.Store.Canonical

/-!
# Counting connectives

The connectives of a formula are counted with a list of pending formulas.  In every round one of
them is taken off the list, and if it has parts, it is counted and its parts become pending.  Since
formulas are shared, the same formula may be pending several times, and come up again after it was
taken off.  It is then counted again, once for every place at which it occurs.

A round (`CountRound`) looks at the node of the formula as the store holds it, without asking
whether the parts come before it.  Which of the pending formulas is taken is left open, so that it
does not matter at which end of the list they are taken off.

What is counted and what is still pending always add up to the connectives of the tree, and every
round takes one node off the trees of the pending formulas (`Counting.Sound`).  So a count ends
after as many rounds as the tree has nodes, however it goes.  `Store.countConnectives` is one of the
ways in which it can go (`exists_countRun`).
-/

namespace SequentCalculus

/-! ### Connectives of normal forms -/

namespace Expr

variable {policy : Policy} {bot : Expr}

/-- An implication has one connective more than its operands, also if it is built as a negation. -/
theorem connectives_mkImplies (hbot : bot.connectives = 0) (a b : Expr) :
    (mkImplies policy bot a b).connectives = a.connectives + b.connectives + 1 := by
  unfold mkImplies
  split
  · rename_i h
    rw [h.2, hbot, connectives, Nat.add_zero]
  · rfl

/-- An expanded equivalence has three connectives of its own, and each operand twice. -/
theorem connectives_mkIff (hbot : bot.connectives = 0) (hexpand : policy.equivalence = .expand)
    (a b : Expr) :
    (mkIff policy bot a b).connectives = 3 + 2 * a.connectives + 2 * b.connectives := by
  unfold mkIff
  simp only [hexpand, connectives, connectives_mkImplies hbot]
  omega

end Expr

namespace Store

variable {s t : Store} {f : Formula} {node : Node}

/-! ### Trees of nodes -/

/-- The node that stands at the place of a formula is the node of the formula. -/
theorem WellFormed.node?_of_getElem? (hs : s.WellFormed) (hf : s.Owns f)
    (hget : s.nodes[f.index]? = some node) : s.node? f = some node := by
  obtain ⟨own, hown, hkind⟩ := owns_iff.1 hf
  obtain rfl : own = node := Option.some.inj (hown.symm.trans hget)
  exact hs.node?_eq_some_iff.2 ⟨hget, hkind⟩

/-- A tree has one node more than the trees of the parts. -/
theorem size_tree (h : s.node? f = some node) :
    (s.tree f).size = sumBy (fun g => (s.tree g).size) node.parts + 1 := by
  rw [tree_eq_nodeTree h]
  cases node <;> simp [nodeTree, Expr.size, Node.parts]

/-- A tree has one connective more than the trees of the parts, if there are any. -/
theorem connectives_tree (h : s.node? f = some node) :
    (s.tree f).connectives =
      sumBy (fun g => (s.tree g).connectives) node.parts + if node.parts = [] then 0 else 1 := by
  rw [tree_eq_nodeTree h]
  cases node <;> simp [nodeTree, Expr.connectives, Node.parts]

theorem connectives_eq_of_extends (hs : s.WellFormed) (ht : t.WellFormed) (hst : s.Extends t)
    (hf : s.Owns f) : t.connectives f = s.connectives f := by
  rw [connectives_eq, connectives_eq, hs.tree_extend ht hst hf]

theorem WellFormed.connectives_tree_falsum (hs : s.WellFormed) :
    (s.tree .falsum).connectives = 0 := by
  obtain ⟨name, hname⟩ := hs.falsum
  rw [tree_atom (hs.node?_eq_some_iff.2 ⟨hname, rfl⟩), Expr.connectives]

/-! ### Rounds -/

/-- A count on its way: the formulas that are still to be looked at, and the number of connectives
so far. -/
structure Counting where
  pending : List Formula
  counted : Nat

/-- **One round of a count.**  A pending formula is taken off.  If it has parts, they become pending
in its place and it is counted. -/
inductive CountRound (s : Store) : Counting → Counting → Prop
  | leaf (before after : List Formula) {f : Formula} {node : Node} {counted : Nat}
      (hnode : s.nodes[f.index]? = some node) (hparts : node.parts = []) :
      CountRound s ⟨before ++ f :: after, counted⟩ ⟨before ++ after, counted⟩
  | compound (before after : List Formula) {f : Formula} {node : Node} {counted : Nat}
      (hnode : s.nodes[f.index]? = some node) (hparts : node.parts ≠ []) :
      CountRound s ⟨before ++ f :: after, counted⟩ ⟨before ++ node.parts ++ after, counted + 1⟩

/-- A number of rounds, one after the other. -/
inductive CountRun (s : Store) : Nat → Counting → Counting → Prop
  | zero (c : Counting) : CountRun s 0 c c
  | succ {n : Nat} {c d e : Counting} (hround : s.CountRound c d) (hrun : CountRun s n d e) :
      CountRun s (n + 1) c e

/-- The first of the pending formulas may always be taken. -/
theorem countRound_cons {g : Formula} (hget : s.nodes[g.index]? = some node)
    (rest : List Formula) (counted : Nat) :
    s.CountRound ⟨g :: rest, counted⟩
      ⟨node.parts ++ rest, counted + if node.parts = [] then 0 else 1⟩ := by
  by_cases hparts : node.parts = []
  · simpa [hparts] using CountRound.leaf [] rest hget hparts
  · simpa [hparts] using CountRound.compound [] rest hget hparts

/-- A round is possible as long as formulas of the store are pending. -/
theorem exists_countRound {c : Counting} (howns : ∀ g ∈ c.pending, s.Owns g)
    (hpending : c.pending ≠ []) : ∃ d, s.CountRound c d := by
  obtain ⟨pending, counted⟩ := c
  obtain ⟨g, rest, rfl⟩ := List.exists_cons_of_ne_nil hpending
  obtain ⟨node, hget, -⟩ := owns_iff.1 (howns g List.mem_cons_self)
  exact ⟨_, countRound_cons hget rest counted⟩

/-- **What a round does**: a formula is replaced by the parts of its node, and counted if it has
any. -/
theorem CountRound.exists_node {c d : Counting} (h : s.CountRound c d) :
    ∃ before g after node, s.nodes[g.index]? = some node ∧ c.pending = before ++ g :: after ∧
      d.pending = before ++ node.parts ++ after ∧
      d.counted = c.counted + if node.parts = [] then 0 else 1 := by
  cases h with
  | @leaf before after g node counted hnode hparts =>
    exact ⟨before, g, after, node, hnode, rfl, by simp [hparts], by simp [hparts]⟩
  | @compound before after g node counted hnode hparts =>
    exact ⟨before, g, after, node, hnode, rfl, rfl, by simp [hparts]⟩

/-- A formula of the store gives way to formulas of the store. -/
theorem WellFormed.owns_parts_of_pending (hs : s.WellFormed) {g : Formula}
    (before after : List Formula) (hnode : s.node? g = some node)
    (howns : ∀ pending ∈ before ++ g :: after, s.Owns pending) :
    ∀ pending ∈ before ++ node.parts ++ after, s.Owns pending := by
  intro pending hpending
  rw [List.append_assoc] at hpending
  rcases List.mem_append.1 hpending with hbefore | hrest
  · exact howns pending (by simp [hbefore])
  · rcases List.mem_append.1 hrest with hpart | hafter
    · exact hs.owns_part hnode hpart
    · exact howns pending (by simp [hafter])

/-- **How far a count of `f` is** after so many rounds: the rounds and the nodes that are pending
make up the tree of `f`, and what is counted and the connectives that are pending make up its
connectives. -/
structure Counting.Sound (s : Store) (f : Formula) (rounds : Nat) (c : Counting) : Prop where
  owns : ∀ g ∈ c.pending, s.Owns g
  rounds_add : rounds + sumBy (fun g => (s.tree g).size) c.pending = (s.tree f).size
  counted_add :
    c.counted + sumBy (fun g => (s.tree g).connectives) c.pending = (s.tree f).connectives

namespace Counting

variable {c d : Counting} {m n : Nat}

theorem sound_start (hf : s.Owns f) : Sound s f 0 ⟨[f], 0⟩ where
  owns := by simpa using hf
  rounds_add := by simp
  counted_add := by simp

/-- **A round keeps a count sound.** -/
theorem Sound.round (hs : s.WellFormed) (h : Sound s f n c) (hround : s.CountRound c d) :
    Sound s f (n + 1) d := by
  obtain ⟨howns, hrounds, hcounted⟩ := h
  obtain ⟨before, g, after, node, hget, hpending, hpending', hcounted'⟩ := hround.exists_node
  rw [hpending] at howns hrounds hcounted
  have hnode : s.node? g = some node := hs.node?_of_getElem? (howns g (by simp)) hget
  have hsize := size_tree hnode
  have hconnectives := connectives_tree hnode
  simp only [sumBy_append, sumBy_cons] at hrounds hcounted
  -- `g` gives way to its parts, which together have one node less and one connective less
  refine ⟨?_, ?_, ?_⟩
  · rw [hpending']
    exact hs.owns_parts_of_pending before after hnode howns
  · rw [hpending', sumBy_append, sumBy_append]
    omega
  · rw [hpending', hcounted', sumBy_append, sumBy_append]
    omega

/-- **A run keeps a count sound.** -/
theorem Sound.run (hs : s.WellFormed) (h : Sound s f m c) (hrun : s.CountRun n c d) :
    Sound s f (m + n) d := by
  induction hrun generalizing m with
  | zero c => exact h
  | @succ n c d e hround _ ih =>
    have hnext := ih (h.round hs hround)
    rwa [Nat.add_right_comm, Nat.add_assoc] at hnext

/-- When nothing is pending any more, the connectives of the tree are counted. -/
theorem Sound.eq_of_pending_eq_nil (h : Sound s f n c) (hpending : c.pending = []) :
    n = (s.tree f).size ∧ c = ⟨[], s.connectives f⟩ := by
  obtain ⟨-, hrounds, hcounted⟩ := h
  obtain ⟨pending, counted⟩ := c
  obtain rfl : pending = [] := hpending
  rw [← connectives_eq] at hcounted
  exact ⟨hrounds, congrArg _ hcounted⟩

end Counting

/-- **The connectives are counted in rounds**, each time of the first formula that is pending. -/
theorem exists_countRun (hs : s.WellFormed) (pending : List Formula) (counted : Nat)
    (howns : ∀ g ∈ pending, s.Owns g) :
    ∃ n, s.CountRun n ⟨pending, counted⟩ ⟨[], s.countConnectives pending counted⟩ := by
  fun_induction countConnectives s pending counted with
  | case1 counted => exact ⟨0, .zero _⟩
  | case2 counted g rest a hnode _ ih =>
    obtain ⟨n, hrun⟩ := ih (hs.owns_parts_of_pending [] rest hnode howns)
    exact ⟨n + 1, .succ (countRound_cons (node?_eq_some_iff.1 hnode).1 rest counted) hrun⟩
  | case3 counted g rest op a b hnode _ ih =>
    obtain ⟨n, hrun⟩ := ih (hs.owns_parts_of_pending [] rest hnode howns)
    exact ⟨n + 1, .succ (countRound_cons (node?_eq_some_iff.1 hnode).1 rest counted) hrun⟩
  | case4 counted g rest hnot hbinary ih =>
    -- a formula that is neither a negation nor joined by a connective is an atom
    obtain ⟨name, hnode⟩ : ∃ name, s.node? g = some (.atom name) := by
      obtain ⟨node, hnode⟩ := hs.owns_iff_node?.1 (howns g List.mem_cons_self)
      cases node with
      | atom name => exact ⟨name, hnode⟩
      | not a => exact absurd hnode (hnot a)
      | binary op a b => exact absurd hnode (hbinary op a b)
    obtain ⟨n, hrun⟩ := ih (hs.owns_parts_of_pending [] rest hnode howns)
    exact ⟨n + 1, .succ (countRound_cons (node?_eq_some_iff.1 hnode).1 rest counted) hrun⟩

theorem countRun_connectives (hs : s.WellFormed) (hf : s.Owns f) :
    s.CountRun (s.tree f).size ⟨[f], 0⟩ ⟨[], s.connectives f⟩ := by
  obtain ⟨n, hrun⟩ := exists_countRun hs [f] 0 (by simpa using hf)
  have hend := (Counting.sound_start hf).run hs hrun
  rw [← (hend.eq_of_pending_eq_nil rfl).1, Nat.zero_add]
  exact hrun

/-! ### The count of the tree -/

/-- A node has one connective more than its parts, if there are any. -/
theorem WellFormed.connectives_eq_parts (hs : s.WellFormed) (hf : s.Owns f)
    (hget : s.nodes[f.index]? = some node) :
    s.connectives f = if node.parts = [] then 0 else 1 + sumBy s.connectives node.parts := by
  have hcount : s.connectives = fun g => (s.tree g).connectives := funext s.connectives_eq
  simp only [hcount, connectives_tree (hs.node?_of_getElem? hf hget)]
  by_cases hparts : node.parts = []
  · simp [hparts]
  · simp [hparts, Nat.add_comm]

/-- **Connectives are counted once for every occurrence.**  In a reachable store, let a formula be
counted in rounds, in whatever order the pending formulas are taken.

* The count is that of the tree: an atom has no connectives, and any other formula has one more than
  its parts together, a part that occurs twice being counted twice.
* No count takes more rounds than the tree has nodes, only formulas of the store are ever looked at,
  and when no round is possible any more, all connectives have been counted.
* The number stays the same while the store grows.
* An equivalence that is expanded has three connectives and twice those of each side, also where the
  policy builds one of its implications as a negation. -/
theorem connectives_are_counted_per_occurrence (hs : s.Reachable) :
    (∀ f, s.Owns f →
      s.connectives f = (s.tree f).connectives ∧
      (∀ node, s.nodes[f.index]? = some node →
        s.connectives f = if node.parts = [] then 0 else 1 + sumBy s.connectives node.parts) ∧
      s.CountRun (s.tree f).size ⟨[f], 0⟩ ⟨[], s.connectives f⟩ ∧
      (∀ n c, s.CountRun n ⟨[f], 0⟩ c →
        n ≤ (s.tree f).size ∧ (∀ g ∈ c.pending, s.Owns g) ∧
          ((¬∃ d, s.CountRound c d) → c = ⟨[], s.connectives f⟩)) ∧
      ∀ t, s.Grows t → t.connectives f = s.connectives f) ∧
    (s.policy.equivalence = .expand → ∀ a b, s.Owns a → s.Owns b →
      ∃ f t, s.compound (.bin .iff) [a, b] = .ok (f, t) ∧
        t.connectives f = 3 + 2 * s.connectives a + 2 * s.connectives b) := by
  have hwf := hs.wellFormed
  refine ⟨fun f hf => ⟨s.connectives_eq f, fun node => hwf.connectives_eq_parts hf,
    countRun_connectives hwf hf, fun n c hrun => ?_, fun t hgrows => ?_⟩,
    fun hexpand a b ha hb => ?_⟩
  · have hsound := (Counting.sound_start hf).run hwf hrun
    have hrounds := hsound.rounds_add
    refine ⟨by omega, hsound.owns, fun hstuck => ?_⟩
    by_cases hpending : c.pending = []
    · exact (hsound.eq_of_pending_eq_nil hpending).2
    · exact absurd (exists_countRound hsound.owns hpending) hstuck
  · obtain ⟨hext, ht⟩ := hgrows.extend_wellFormed hwf
    exact connectives_eq_of_extends hwf ht hext hf
  · have hiff := yields_iff hwf ha hb
    refine ⟨(s.iff a b).1, (s.iff a b).2, rfl, ?_⟩
    rw [connectives_eq, connectives_eq, connectives_eq, hiff.tree,
      Expr.connectives_mkIff hwf.connectives_tree_falsum hexpand]

/-- Where implications to the false constant become negations, `p <=> false` is built as
`~p & (false -> p)`.  It has three connectives, also after `q` was interned, and they are counted in
six rounds.  Its equivalence with itself has fifteen connectives, in a store of eight formulas. -/
theorem connectives_are_counted_per_occurrence_in_nested_equivalence :
    let written : Expr := .binary .iff (.atom "p") .falsum
    let built := written.build (ofPolicy ⟨.fromImplication, .expand⟩)
    built.2.Reachable ∧ built.2.Owns built.1 ∧ built.2.policy.equivalence = .expand ∧
      built.2.connectives built.1 = 3 ∧ built.2.CountRun 6 ⟨[built.1], 0⟩ ⟨[], 3⟩ ∧
      (built.2.atom "q").2.connectives built.1 = 3 ∧
      ∃ f t, built.2.compound (.bin .iff) [built.1, built.1] = .ok (f, t) ∧
        t.connectives f = 15 ∧ t.size = 8 := by
  intro written built
  have hfresh := reachable_ofPolicy ⟨.fromImplication, .expand⟩
  have hreachable : built.2.Reachable := hfresh.grow (grows_build hfresh.wellFormed _)
  have howns : built.2.Owns built.1 := (yields_build hfresh.wellFormed _).owns
  have hexpand : built.2.policy.equivalence = .expand := rfl
  have hthree : built.2.connectives built.1 = 3 := by decide +kernel
  have hsix : (built.2.tree built.1).size = 6 := by decide +kernel
  obtain ⟨hcounts, hequivalence⟩ := connectives_are_counted_per_occurrence hreachable
  obtain ⟨-, -, hrun, -, hgrows⟩ := hcounts built.1 howns
  rw [hsix, hthree] at hrun
  obtain ⟨f, t, hcompound, hfifteen⟩ := hequivalence hexpand built.1 built.1 howns howns
  rw [hthree] at hfifteen
  have hsize : (built.2.iff built.1 built.1).2.size = 8 := by decide +kernel
  obtain rfl : (built.2.iff built.1 built.1).2 = t := congrArg Prod.snd (Except.ok.inj hcompound)
  exact ⟨hreachable, howns, hexpand, hthree, hrun,
    (hgrows _ (.single (.atom _ "q"))).trans hthree, f, _, hcompound, hfifteen, hsize⟩

end Store

end SequentCalculus
