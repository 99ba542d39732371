import SequentCalculus.Rule

/-!
# Rules lower the weight

The weight of a sequent is the number of connectives in it (`Store.weight`).  A logical rule takes
one connective away and drops what belongs to the other branch, so every subgoal is lighter than
the goal (`weight_lt_of_subgoals`).  There are never more than two subgoals, so the powers of three
of their weights add up to less than that of the goal (`potential_subgoals_lt`), which is what ends
the work on a sequent whatever order it is done in.
-/

namespace SequentCalculus.Store

variable {s : Store}

/-! ### Adding and taking away formulas -/

theorem weight_add (q : Sequent) (side : Side) (f : Formula) :
    s.weight (q.add side f) = s.weight q + (s.tree f).connectives := by
  cases side
  · have h := sumBy_perm (fun f => (s.tree f).connectives) (q.left.perm_add f)
    simp only [weight, Sequent.add, h, sumBy_cons]
    omega
  · have h := sumBy_perm (fun f => (s.tree f).connectives) (q.right.perm_add f)
    simp only [weight, Sequent.add, h, sumBy_cons]
    omega

theorem weight_addAll (q : Sequent) (additions : List (Side × Formula)) :
    s.weight (q.addAll additions) =
      s.weight q + sumBy (fun addition => (s.tree addition.2).connectives) additions := by
  induction additions generalizing q with
  | nil => simp [Sequent.addAll]
  | cons addition additions ih =>
    rw [Sequent.addAll, List.foldl_cons, ← Sequent.addAll, ih, weight_add, sumBy_cons]
    omega

theorem weight_erase {q : Sequent} {side : Side} {f : Formula} (h : f ∈ q.side side) :
    s.weight (q.erase side f) + (s.tree f).connectives = s.weight q := by
  cases side
  · have h := sumBy_perm (fun f => (s.tree f).connectives) (Cedent.perm_erase h)
    simp only [Sequent.side, sumBy_cons] at h
    simp only [weight, Sequent.erase, h]
    omega
  · have h := sumBy_perm (fun f => (s.tree f).connectives) (Cedent.perm_erase h)
    simp only [Sequent.side, sumBy_cons] at h
    simp only [weight, Sequent.erase, h]
    omega

/-! ### Subgoals -/

/-- The formulas that a branch gains have fewer connectives than the formula they replace. -/
theorem connectives_branch_lt {f : Formula} {node : Node} {side : Side}
    {branches : List (List (Side × Formula))} {branch : List (Side × Formula)}
    (hnode : s.node? f = some node) (hbranches : node.branches side = some branches)
    (hbranch : branch ∈ branches) :
    sumBy (fun addition => (s.tree addition.2).connectives) branch <
      (s.tree f).connectives := by
  rcases node with name | a | ⟨op, a, b⟩
  · simp [Node.branches] at hbranches
  · rw [tree_not hnode, Expr.connectives]
    cases side <;> simp only [Node.branches, Option.some.injEq] at hbranches <;>
      subst hbranches <;> simp_all
  · rw [tree_binary hnode, Expr.connectives]
    cases op <;> cases side <;>
      simp only [Node.branches, Option.some.injEq, reduceCtorEq] at hbranches <;>
      subst hbranches <;> simp only [List.mem_cons, List.not_mem_nil, or_false] at hbranch <;>
      rcases hbranch with rfl | rfl <;>
      simp only [sumBy_cons, sumBy_nil] <;> omega

/-- There are at most two branches. -/
theorem length_branches_le {node : Node} {side : Side}
    {branches : List (List (Side × Formula))} (h : node.branches side = some branches) :
    branches.length ≤ 2 := by
  rcases node with name | a | ⟨op, a, b⟩
  · simp [Node.branches] at h
  · cases side <;> simp only [Node.branches, Option.some.injEq] at h <;> subst h <;> simp
  · cases op <;> cases side <;> simp only [Node.branches, Option.some.injEq, reduceCtorEq] at h <;>
      subst h <;> simp

/-- What it takes for a logical rule to have subgoals, and what they are. -/
theorem subgoals_eq_ok {r : Rule} {goal : Sequent} {goals : List Sequent}
    (h : r.subgoals s goal = .ok goals) :
    ∃ side shape f node branches, r = .logical side shape f ∧ f.kind = shape.kind ∧
      f ∈ goal.side side ∧ s.node? f = some node ∧ node.branches side = some branches ∧
      goals = branches.map (goal.erase side f).addAll := by
  rcases r with _ | ⟨side, shape, f⟩
  · simp [Rule.subgoals] at h
  · rw [Rule.subgoals] at h
    split at h
    · simp at h
    · rename_i hkind
      split at h
      · simp at h
      · rename_i hmem
        split at h
        · simp at h
        · rename_i branches hbranches
          obtain ⟨node, hnode, hbranches⟩ := Option.bind_eq_some_iff.1 hbranches
          exact ⟨side, shape, f, node, branches, rfl, by simpa using hkind, by simpa using hmem,
            hnode, hbranches, (Except.ok.inj h).symm⟩

/-- Every subgoal is lighter than the goal. -/
theorem weight_lt_of_subgoals {r : Rule} {goal : Sequent} {goals : List Sequent}
    (h : r.subgoals s goal = .ok goals) {subgoal : Sequent} (hsub : subgoal ∈ goals) :
    s.weight subgoal < s.weight goal := by
  obtain ⟨side, shape, f, node, branches, -, -, hmem, hnode, hbranches, rfl⟩ := subgoals_eq_ok h
  obtain ⟨branch, hbranch, rfl⟩ := List.mem_map.1 hsub
  have hlt := connectives_branch_lt hnode hbranches hbranch
  have herase := weight_erase (s := s) hmem
  rw [weight_addAll]
  omega

/-- There are at most two subgoals. -/
theorem length_subgoals_le {r : Rule} {goal : Sequent} {goals : List Sequent}
    (h : r.subgoals s goal = .ok goals) : goals.length ≤ 2 := by
  obtain ⟨side, shape, f, node, branches, -, -, -, -, hbranches, rfl⟩ := subgoals_eq_ok h
  rw [List.length_map]
  exact length_branches_le hbranches

/-! ### Potential -/

/-- A bound on the work that a sequent can give rise to. -/
def potential (s : Store) (q : Sequent) : Nat :=
  Nat.pow 3 (s.weight q)

theorem potential_pos (q : Sequent) : 0 < s.potential q :=
  Nat.pow_pos (by decide)

/-- A subgoal has at most a third of the goal's potential. -/
theorem three_mul_potential_le {r : Rule} {goal : Sequent} {goals : List Sequent}
    (h : r.subgoals s goal = .ok goals) {subgoal : Sequent} (hsub : subgoal ∈ goals) :
    3 * s.potential subgoal ≤ s.potential goal := by
  calc 3 * s.potential subgoal = Nat.pow 3 (s.weight subgoal + 1) := Nat.mul_comm _ _
    _ ≤ s.potential goal := Nat.pow_le_pow_right (by decide) (weight_lt_of_subgoals h hsub)

/-- All subgoals together have less potential than the goal. -/
theorem potential_subgoals_lt {r : Rule} {goal : Sequent} {goals : List Sequent}
    (h : r.subgoals s goal = .ok goals) :
    sumBy s.potential goals < s.potential goal := by
  have hlength := length_subgoals_le h
  have hthird : ∀ subgoal ∈ goals, 3 * s.potential subgoal ≤ s.potential goal :=
    fun _ hsub => three_mul_potential_le h hsub
  have hpos := potential_pos (s := s) goal
  match goals, hlength with
  | [], _ => simpa using hpos
  | [g], _ =>
    have hg := hthird g (by simp)
    simp only [sumBy_cons, sumBy_nil]
    omega
  | [g₁, g₂], _ =>
    have hg₁ := hthird g₁ (by simp)
    have hg₂ := hthird g₂ (by simp)
    simp only [sumBy_cons, sumBy_nil]
    omega

end SequentCalculus.Store
