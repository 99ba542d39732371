import SequentCalculus.Proofs.Semantics
import SequentCalculus.Rule.Weight
import Mathlib.Algebra.Group.Nat.Defs

/-!
# The calculus

`Infers` lists the eight logical rules by their figures, a conclusion over one or two premises with
a common context.  `subgoals_eq_ok_iff` says that the subgoals computed for a rule are exactly the
premises of the figure whose conclusion is the goal.

Each rule can be read in both directions: its conclusion holds under an assignment if and only if
all its premises do (`Infers.holds_iff`).  Downwards this is soundness, upwards it is
invertibility, by which nothing is lost when a goal is replaced by its subgoals.  A rule that is
requested where its principal formula has another kind, or does not stand, is refused.

There are at most two premises, and each has fewer connectives than the conclusion.  So the goals
that can come up from a sequent are no more than the nodes of a full binary tree that is as high as
the sequent has connectives (`Store.goalBound`).

A `Derivation` is a tree of such figures whose leaves are axioms.  The trees are indexed by their
conclusions, so that there are no others than correct ones, and what has a derivation holds
(`Derivation.holds`).
-/

namespace SequentCalculus

/-! ### Figures -/

/-- **The logical rules**: the rule, its conclusion, and its premises from left to right. -/
inductive Infers (s : Store) : Rule → Sequent → List Sequent → Prop
  | leftAnd {f a b : Formula} (context : Sequent) (h : s.node? f = some (.binary .and a b)) :
      Infers s (.logical .left .and f) (context.add .left f)
        [(context.add .left a).add .left b]
  | rightAnd {f a b : Formula} (context : Sequent) (h : s.node? f = some (.binary .and a b)) :
      Infers s (.logical .right .and f) (context.add .right f)
        [context.add .right a, context.add .right b]
  | leftOr {f a b : Formula} (context : Sequent) (h : s.node? f = some (.binary .or a b)) :
      Infers s (.logical .left .or f) (context.add .left f)
        [context.add .left a, context.add .left b]
  | rightOr {f a b : Formula} (context : Sequent) (h : s.node? f = some (.binary .or a b)) :
      Infers s (.logical .right .or f) (context.add .right f)
        [(context.add .right a).add .right b]
  | leftImplies {f a b : Formula} (context : Sequent)
      (h : s.node? f = some (.binary .implies a b)) :
      Infers s (.logical .left .implies f) (context.add .left f)
        [context.add .right a, context.add .left b]
  | rightImplies {f a b : Formula} (context : Sequent)
      (h : s.node? f = some (.binary .implies a b)) :
      Infers s (.logical .right .implies f) (context.add .right f)
        [(context.add .left a).add .right b]
  | leftNot {f a : Formula} (context : Sequent) (h : s.node? f = some (.not a)) :
      Infers s (.logical .left .not f) (context.add .left f) [context.add .right a]
  | rightNot {f a : Formula} (context : Sequent) (h : s.node? f = some (.not a)) :
      Infers s (.logical .right .not f) (context.add .right f) [context.add .left a]

theorem Infers.length_eq {s : Store} {r : Rule} {q : Sequent} {premises : List Sequent}
    (h : Infers s r q premises) : premises.length = r.name.numSubgoals := by
  cases h <;> rfl

/-- The subgoals of a rule on a goal that is written as a context and the principal formula. -/
theorem subgoals_add {s : Store} (side : Side) (shape : Shape) {f : Formula} {node : Node}
    {branches : List (List (Side × Formula))} (context : Sequent) (hnode : s.node? f = some node)
    (hkind : node.kind = shape.kind) (hbranches : node.branches side = some branches) :
    (Rule.logical side shape f).subgoals s (context.add side f) =
      .ok (branches.map context.addAll) := by
  have hf : f.kind = shape.kind := (Store.node?_eq_some_iff.1 hnode).2.1.symm.trans hkind
  have hmem : f ∈ (context.add side f).side side := Sequent.mem_side_add.2 (.inl ⟨rfl, rfl⟩)
  unfold Rule.subgoals
  simp only [hf, hmem, hnode, hbranches, Option.bind_some, Sequent.erase_add, not_true_eq_false,
    ne_eq, if_false]

/-- **Subgoals are premises**: what is computed for a rule is what its figure says. -/
theorem subgoals_eq_ok_iff {s : Store} {r : Rule} {q : Sequent} {premises : List Sequent} :
    r.subgoals s q = .ok premises ↔ Infers s r q premises := by
  constructor
  · intro h
    obtain ⟨side, shape, f, node, branches, rfl, hkind, hmem, hnode, hbranches, rfl⟩ :=
      Store.subgoals_eq_ok h
    have hshape : node.kind = shape.kind := (Store.node?_eq_some_iff.1 hnode).2.1.trans hkind
    rw [← Sequent.add_erase hmem, Sequent.erase_add]
    -- the node decides the shape, and with the side the figure
    rcases node with name | a | ⟨_ | _ | _ | _, a, b⟩ <;> cases shape <;> cases hshape <;>
      cases side <;> cases hbranches
    · exact .leftNot _ hnode
    · exact .rightNot _ hnode
    · exact .leftAnd _ hnode
    · exact .rightAnd _ hnode
    · exact .leftOr _ hnode
    · exact .rightOr _ hnode
    · exact .leftImplies _ hnode
    · exact .rightImplies _ hnode
  · intro h
    cases h with
    | leftAnd context h => exact subgoals_add .left .and context h rfl rfl
    | rightAnd context h => exact subgoals_add .right .and context h rfl rfl
    | leftOr context h => exact subgoals_add .left .or context h rfl rfl
    | rightOr context h => exact subgoals_add .right .or context h rfl rfl
    | leftImplies context h => exact subgoals_add .left .implies context h rfl rfl
    | rightImplies context h => exact subgoals_add .right .implies context h rfl rfl
    | leftNot context h => exact subgoals_add .left .not context h rfl rfl
    | rightNot context h => exact subgoals_add .right .not context h rfl rfl

/-- **A formula that stands in a sequent can be taken apart there**, if it is a formula of the
store and its kind has a rule. -/
theorem exists_infers {s : Store} (hs : s.WellFormed) {q : Sequent} {side : Side} {shape : Shape}
    {f : Formula} (howns : s.Owns f) (hmem : f ∈ q.side side) (hkind : f.kind = shape.kind) :
    ∃ premises, Infers s (.logical side shape f) q premises := by
  obtain ⟨node, hnode⟩ := hs.owns_iff_node?.1 howns
  have hshape : node.kind = shape.kind := (hs.node?_eq_some_iff.1 hnode).2.trans hkind
  -- what is left of the sequent is the context of the figure
  rw [← Sequent.add_erase hmem]
  rcases node with name | a | ⟨_ | _ | _ | _, a, b⟩ <;> cases shape <;> cases hshape <;>
    cases side
  · exact ⟨_, .leftNot _ hnode⟩
  · exact ⟨_, .rightNot _ hnode⟩
  · exact ⟨_, .leftAnd _ hnode⟩
  · exact ⟨_, .rightAnd _ hnode⟩
  · exact ⟨_, .leftOr _ hnode⟩
  · exact ⟨_, .rightOr _ hnode⟩
  · exact ⟨_, .leftImplies _ hnode⟩
  · exact ⟨_, .rightImplies _ hnode⟩

/-- **The applicable rules are those that work**: the closing rule on axioms, and the rules of which
the sequent is a conclusion. -/
theorem mem_applicableRules_iff {s : Store} (hs : s.WellFormed) {q : Sequent}
    (hq : s.OwnsSequent q) {r : Rule} :
    r ∈ q.applicableRules ↔
      (r = .ax ∧ q.isAxiom = true) ∨ ∃ premises, Infers s r q premises := by
  cases r with
  | ax =>
    rw [Sequent.ax_mem_applicableRules]
    constructor
    · intro hax
      exact .inl ⟨rfl, hax⟩
    · rintro (⟨-, hax⟩ | ⟨premises, hinfers⟩)
      · exact hax
      · cases hinfers
  | logical side shape f =>
    rw [Sequent.logical_mem_applicableRules]
    constructor
    · rintro ⟨hmem, hkind⟩
      exact .inr (exists_infers hs (hq side f hmem) hmem hkind)
    · rintro (⟨hax, -⟩ | ⟨premises, hinfers⟩)
      · cases hax
      · obtain ⟨_, _, _, _, _, hrule, hkind, hmem, -⟩ :=
          Store.subgoals_eq_ok (subgoals_eq_ok_iff.2 hinfers)
        cases hrule
        exact ⟨hmem, hkind⟩

/-! ### Soundness and invertibility -/

/-- A formula makes its sequent hold exactly when, on every branch, one of the formulas that replace
it does. -/
theorem eval_eq_goodValue_iff {s : Store} {f : Formula} {node : Node} {side : Side}
    {branches : List (List (Side × Formula))} (hnode : s.node? f = some node)
    (hbranches : node.branches side = some branches) (α : Assignment) :
    s.eval α f = side.goodValue ↔ ∀ branch ∈ branches, ∃ addition ∈ branch,
      s.eval α addition.2 = addition.1.goodValue := by
  cases node with
  | atom name => cases hbranches
  | not a =>
    rw [Store.eval_not hnode]
    cases side <;> cases hbranches <;>
      simp only [List.mem_singleton, forall_eq, exists_eq_left, Side.goodValue] <;> simp
  | binary op a b =>
    by_cases hop : op = .iff
    · subst hop
      cases hbranches
    · -- the truth table of the connective, read on the side where the formula stands
      rw [Store.eval_binary hnode hop]
      cases op <;> cases side <;> cases hbranches <;>
        simp only [List.mem_cons, List.not_mem_nil, or_false, forall_eq_or_imp, forall_eq,
          exists_eq_or_imp, exists_eq_left, Side.goodValue, BinOp.eval] <;>
        cases s.eval α a <;> cases s.eval α b <;> simp

/-- **Every rule is sound and invertible**: its conclusion holds exactly when its premises do. -/
theorem Infers.holds_iff {s : Store} {r : Rule} {q : Sequent} {premises : List Sequent}
    (h : Infers s r q premises) (α : Assignment) :
    q.Holds (s.eval α) ↔ ∀ premise ∈ premises, premise.Holds (s.eval α) := by
  obtain ⟨side, shape, f, node, branches, rfl, -, hmem, hnode, hbranches, rfl⟩ :=
    Store.subgoals_eq_ok (subgoals_eq_ok_iff.2 h)
  rw [← Sequent.add_erase hmem, Sequent.erase_add, Sequent.holds_add,
    eval_eq_goodValue_iff hnode hbranches, List.forall_mem_map]
  simp only [Sequent.holds_addAll]
  -- the context is common to all branches
  by_cases hcontext : (q.erase side f).Holds (s.eval α)
  · simp [hcontext]
  · simp [hcontext]

/-- What a branch gains are parts of the formula that is taken apart. -/
theorem mem_parts_of_branches {node : Node} {side : Side} {branches : List (List (Side × Formula))}
    (h : node.branches side = some branches) {branch : List (Side × Formula)}
    (hbranch : branch ∈ branches) {addition : Side × Formula} (hadd : addition ∈ branch) :
    addition.2 ∈ node.parts := by
  rcases node with name | a | ⟨_ | _ | _ | _, a, b⟩ <;> cases side <;> cases h <;>
    simp only [List.mem_cons, List.not_mem_nil, or_false] at hbranch
  all_goals
    rcases hbranch with rfl | rfl <;> simp only [List.mem_cons, List.not_mem_nil, or_false] at hadd
  all_goals rcases hadd with rfl | rfl <;> simp [Node.parts]

/-- The premises of a rule are sequents of the store, if the conclusion is one. -/
theorem Infers.owns {s : Store} (hs : s.WellFormed) {r : Rule} {q : Sequent}
    {premises : List Sequent} (h : Infers s r q premises) (hq : s.OwnsSequent q) :
    ∀ premise ∈ premises, s.OwnsSequent premise := by
  obtain ⟨side, shape, f, node, branches, rfl, -, -, hnode, hbranches, rfl⟩ :=
    Store.subgoals_eq_ok (subgoals_eq_ok_iff.2 h)
  intro premise hpremise
  obtain ⟨branch, hbranch, rfl⟩ := List.mem_map.1 hpremise
  exact (hq.erase side f).addAll fun addition hadd =>
    hs.owns_part hnode (mem_parts_of_branches hbranches hbranch hadd)

/-! ### The size of a proof tree -/

/-- The weight is the number of connectives as it is counted. -/
theorem Store.weight_eq (s : Store) (q : Sequent) :
    s.weight q = sumBy s.connectives (q.left.occurrences ++ q.right.occurrences) := by
  rw [sumBy_append, weight, funext (connectives_eq s)]

theorem Infers.weight_lt {s : Store} {r : Rule} {q premise : Sequent} {premises : List Sequent}
    (h : Infers s r q premises) (hpremise : premise ∈ premises) :
    s.weight premise < s.weight q :=
  Store.weight_lt_of_subgoals (subgoals_eq_ok_iff.2 h) hpremise

theorem Infers.length_le {s : Store} {r : Rule} {q : Sequent} {premises : List Sequent}
    (h : Infers s r q premises) : premises.length ≤ 2 :=
  Store.length_subgoals_le (subgoals_eq_ok_iff.2 h)

/-- A bound on the goals that can come up from a sequent, itself included. -/
def Store.goalBound (s : Store) (q : Sequent) : Nat :=
  2 ^ (s.weight q + 1) - 1

theorem Store.goalBound_pos {s : Store} (q : Sequent) : 0 < s.goalBound q := by
  have htwo : 2 ^ 1 ≤ 2 ^ (s.weight q + 1) := Nat.pow_le_pow_right (by decide) (by omega)
  unfold goalBound
  omega

theorem Store.length_le_sumBy_goalBound (s : Store) (qs : List Sequent) :
    qs.length ≤ sumBy s.goalBound qs :=
  length_le_sumBy fun q _ => goalBound_pos q

/-- There is room for the premises of a rule and for one goal more. -/
theorem Infers.sumBy_goalBound_lt {s : Store} {r : Rule} {q : Sequent} {premises : List Sequent}
    (h : Infers s r q premises) : sumBy s.goalBound premises < s.goalBound q := by
  have hlength := h.length_le
  -- the tree of a premise is at most half of the tree of the conclusion, less the root
  have hhalf : ∀ premise ∈ premises, 2 * s.goalBound premise + 1 ≤ s.goalBound q := by
    intro premise hpremise
    have hweight := h.weight_lt hpremise
    have hpow : 2 ^ (s.weight premise + 2) ≤ 2 ^ (s.weight q + 1) :=
      Nat.pow_le_pow_right (by decide) (by omega)
    have hsucc : 2 ^ (s.weight premise + 2) = 2 * 2 ^ (s.weight premise + 1) := Nat.pow_succ'
    have hpos : 0 < 2 ^ (s.weight premise + 1) := Nat.two_pow_pos _
    unfold Store.goalBound
    omega
  have hpos := Store.goalBound_pos (s := s) q
  match premises, hlength with
  | [], _ => simpa using hpos
  | [a], _ =>
    have ha := hhalf a (by simp)
    simp only [sumBy_cons, sumBy_nil]
    omega
  | [a, b], _ =>
    have ha := hhalf a (by simp)
    have hb := hhalf b (by simp)
    simp only [sumBy_cons, sumBy_nil]
    omega

/-! ### Requests to apply a rule -/

section Requests

variable {s : Store} {q : Sequent} {side : Side} {shape : Shape} {f : Formula}

theorem subgoals_eq_wrongKind (h : f.kind ≠ shape.kind) :
    (Rule.logical side shape f).subgoals s q = .error (.wrongKind (.logical side shape)) := by
  rw [Rule.subgoals, if_pos h]
  rfl

theorem subgoals_eq_absentPrincipal (hkind : f.kind = shape.kind) (h : f ∉ q.side side) :
    (Rule.logical side shape f).subgoals s q =
      .error (.absentPrincipal (.logical side shape) side) := by
  rw [Rule.subgoals, if_neg (not_not_intro hkind), if_pos h]
  rfl

/-- **What a logical rule does on request.**  If its principal formula has the rule's kind and
stands on the rule's side, the premises of its figure come of it: as many as the rule has subgoals,
all of them sequents of the store, and such that the goal holds under an assignment if and only if
they all do.  Any other request is refused, because of the kind if that is wrong, and otherwise
because the formula is absent. -/
theorem logical_rule_sound_and_invertible (hs : s.Reachable) (hq : s.OwnsSequent q) (side : Side)
    (shape : Shape) (f : Formula) :
    (f.kind = shape.kind → f ∈ q.side side →
      ∃ premises, (Rule.logical side shape f).subgoals s q = .ok premises ∧
        Infers s (.logical side shape f) q premises ∧
        premises.length = (RuleName.logical side shape).numSubgoals ∧
        (∀ premise ∈ premises, s.OwnsSequent premise) ∧
        ∀ α : Assignment,
          q.Holds (s.eval α) ↔ ∀ premise ∈ premises, premise.Holds (s.eval α)) ∧
    (f.kind ≠ shape.kind →
      ∃ fault, (Rule.logical side shape f).subgoals s q = .error fault ∧
        fault.message =
          (RuleName.logical side shape).text ++ " applied to a formula of the wrong type") ∧
    (f.kind = shape.kind → f ∉ q.side side →
      ∃ fault, (Rule.logical side shape f).subgoals s q = .error fault ∧
        fault.message = (RuleName.logical side shape).text ++
          " applied to a formula absent from the " ++ side.word) := by
  refine ⟨fun hkind hmem => ?_, fun hkind => ?_, fun hkind habsent => ?_⟩
  · obtain ⟨premises, hinfers⟩ := exists_infers hs.wellFormed (hq side f hmem) hmem hkind
    exact ⟨premises, subgoals_eq_ok_iff.2 hinfers, hinfers, hinfers.length_eq,
      hinfers.owns hs.wellFormed hq, hinfers.holds_iff⟩
  · exact ⟨_, subgoals_eq_wrongKind hkind, rfl⟩
  · exact ⟨_, subgoals_eq_absentPrincipal hkind habsent, rfl⟩

/-- `a -> a` stands twice on the left of `a -> a, a -> a => a`.  One of the two is taken apart
there, and the other one stays on both branches.  It is no conjunction, and it does not stand on the
right. -/
theorem logical_rule_on_repeated_implication :
    let written : SequentExpr :=
      ⟨[.binary .implies (.atom "a") (.atom "a"), .binary .implies (.atom "a") (.atom "a")],
        [.atom "a"]⟩
    let built := written.build (.ofPolicy {})
    let a : Formula := ⟨2, .atomic⟩
    let f : Formula := ⟨3, .compound (.bin .implies)⟩
    built.2.Reachable ∧ built.2.OwnsSequent built.1 ∧
      (Rule.logical .left .implies f).subgoals built.2 built.1 =
        .ok [.ofLists [f] [a, a], .ofLists [a, f] [a]] ∧
      (∀ α : Assignment, built.1.Holds (built.2.eval α) ↔
        (Sequent.ofLists [f] [a, a]).Holds (built.2.eval α) ∧
          (Sequent.ofLists [a, f] [a]).Holds (built.2.eval α)) ∧
      (∃ fault, (Rule.logical .left .and f).subgoals built.2 built.1 = .error fault ∧
        fault.message = "LEFT_AND applied to a formula of the wrong type") ∧
      ∃ fault, (Rule.logical .right .implies f).subgoals built.2 built.1 = .error fault ∧
        fault.message = "RIGHT_IMPLIES applied to a formula absent from the right" := by
  intro written built a f
  have hpolicy := Store.reachable_ofPolicy {}
  obtain ⟨hgrows, howns⟩ := Store.grows_build_sequent hpolicy.wellFormed written
  have hreachable : built.2.Reachable := hpolicy.grow hgrows
  have hsubgoals : (Rule.logical .left .implies f).subgoals built.2 built.1 =
      .ok [.ofLists [f] [a, a], .ofLists [a, f] [a]] := by decide +kernel
  obtain ⟨hright, -, -⟩ := logical_rule_sound_and_invertible hreachable howns .left .implies f
  obtain ⟨-, hkind, -⟩ := logical_rule_sound_and_invertible hreachable howns .left .and f
  obtain ⟨-, -, habsent⟩ := logical_rule_sound_and_invertible hreachable howns .right .implies f
  refine ⟨hreachable, howns, hsubgoals, ?_, hkind (by decide), habsent rfl (by decide +kernel)⟩
  obtain ⟨premises, hok, -, -, -, hholds⟩ := hright rfl (by decide +kernel)
  rw [hsubgoals] at hok
  cases hok
  simpa using hholds

end Requests

/-! ### Derivations -/

mutual

/-- The derivations of a sequent: an axiom, or a rule with derivations of its premises. -/
inductive Derivation (s : Store) : Sequent → Type
  | ax {q : Sequent} (h : q.isAxiom = true) : Derivation s q
  | infer {q : Sequent} {premises : List Sequent} (rule : Rule) (h : Infers s rule q premises)
      (subtrees : Derivations s premises) : Derivation s q

/-- A derivation for each of a list of sequents. -/
inductive Derivations (s : Store) : List Sequent → Type
  | nil : Derivations s []
  | cons {q : Sequent} {qs : List Sequent} (first : Derivation s q) (others : Derivations s qs) :
      Derivations s (q :: qs)

end

mutual

/-- The rules of a derivation, from the root upwards and the first branch first. -/
def Derivation.rules {s : Store} {q : Sequent} : Derivation s q → List Rule
  | .ax _ => [.ax]
  | .infer rule _ subtrees => rule :: subtrees.rules

def Derivations.rules {s : Store} {qs : List Sequent} : Derivations s qs → List Rule
  | .nil => []
  | .cons first others => first.rules ++ others.rules

end

mutual

/-- **What has a derivation holds** under every assignment. -/
theorem Derivation.holds {s : Store} {q : Sequent} (d : Derivation s q) (α : Assignment) :
    q.Holds (s.eval α) := by
  cases d with
  | ax h => exact Sequent.holds_of_isAxiom s α h
  | infer rule h subtrees => exact (h.holds_iff α).2 (subtrees.holds α)

theorem Derivations.holds {s : Store} {qs : List Sequent} (ds : Derivations s qs)
    (α : Assignment) : ∀ q ∈ qs, q.Holds (s.eval α) := by
  cases ds with
  | nil => simp
  | cons first others =>
    rw [List.forall_mem_cons]
    exact ⟨first.holds α, others.holds α⟩

end

end SequentCalculus
