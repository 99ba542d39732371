import SequentCalculus.Proofs.Search.Invariant
import SequentCalculus.Replay

/-!
# Saturated leaves are counter-models

A search that ends with a saturated leaf has refuted its problem: the leaf fails under some
assignment, and the problem fails under every assignment under which the leaf does.  Formulas that
have vanished from the leaf therefore do not matter.

The leaf is also shown to the user, as a line `name = true` or `name = false` for each atom in it
(`Store.modelLines`).  In a store that expands equivalences these lines say all there is to say:
the valuations that agree with them are those under which the leaf fails
(`agrees_modelLines_iff`).
-/

namespace SequentCalculus

/-! ### Printed models -/

/-- The valuation gives an atom the value that is written down for it, if there is one. -/
def Agrees (v : String → Bool) (lines : List String) : Prop :=
  ∀ name : String, (name ++ " = true" ∈ lines → v name = true) ∧
    (name ++ " = false" ∈ lines → v name = false)

namespace Store

variable {s : Store} {v : String → Bool} {leaf : Sequent} {f : Formula}

/-- In a store that expands equivalences, atoms are all that no rule takes apart. -/
theorem exists_name?_of_saturated (hs : s.WellFormed) (hexpand : s.policy.equivalence = .expand)
    (howns : s.Owns f) (hsat : ∀ shape : Shape, f.kind ≠ shape.kind) :
    ∃ name, s.name? f = some name := by
  obtain ⟨node, hnode⟩ := hs.owns_iff_node?.1 howns
  rcases node_of_saturated hnode hsat with ⟨name, rfl⟩ | ⟨a, b, rfl⟩
  · exact ⟨name, name?_eq_some_iff.2 hnode⟩
  · exact absurd rfl (hs.ne_iff_of_expand hexpand hnode)

/-- The lines after the first, which shows the leaf itself. -/
theorem mem_tail_modelLines {line : String} :
    line ∈ (s.modelLines leaf).tail ↔
      (∃ f ∈ leaf.left, f.kind = .atomic ∧ s.text f ++ " = true" = line) ∨
        ∃ f ∈ leaf.right, f.kind = .atomic ∧ s.text f ++ " = false" = line := by
  have htail : (s.modelLines leaf).tail =
      (leaf.left.ofKind .atomic).map (fun f => s.text f ++ " = true") ++
        (leaf.right.ofKind .atomic).map (fun f => s.text f ++ " = false") := rfl
  rw [htail, List.mem_append, List.mem_map, List.mem_map]
  simp only [Cedent.mem_ofKind, and_assoc]

/-- A line gives one value only, whatever characters the name has. -/
theorem true_line_ne_false_line (a b : String) : a ++ " = true" ≠ b ++ " = false" := by
  intro h
  -- the last but one characters differ
  have hreverse := congrArg (fun line => line.toList.reverse) h
  simp [String.toList_append] at hreverse

theorem name?_eq_some_iff_text (hs : s.WellFormed) (hf : s.Owns f) {name : String} :
    s.name? f = some name ↔ f.kind = .atomic ∧ s.text f = name := by
  obtain ⟨node, hnode⟩ := hs.owns_iff_node?.1 hf
  have hkind : node.kind = f.kind := (node?_eq_some_iff.1 hnode).2.1
  rw [name?_eq_some_iff, hnode, ← hkind]
  cases node with
  | atom name => simp [Node.kind, text, tree_atom hnode, Expr.text]
  | not a => simp [Node.kind]
  | binary op a b => simp [Node.kind]

/-- **The printed lines are the atoms of the leaf**, those on the left true and those on the right
false. -/
theorem agrees_modelLines_iff_names (hs : s.WellFormed) (howns : s.OwnsSequent leaf) :
    Agrees v (s.modelLines leaf).tail ↔
      (∀ f ∈ leaf.left, ∀ name, s.name? f = some name → v name = true) ∧
        ∀ f ∈ leaf.right, ∀ name, s.name? f = some name → v name = false := by
  have hname (side : Side) {f : Formula} (hf : f ∈ leaf.side side) {name : String} :
      s.name? f = some name ↔ f.kind = .atomic ∧ s.text f = name :=
    name?_eq_some_iff_text hs (howns side f hf)
  constructor
  · intro hagrees
    constructor
    · intro f hf name hatom
      obtain ⟨hkind, rfl⟩ := (hname .left hf).1 hatom
      exact (hagrees _).1 (mem_tail_modelLines.2 (.inl ⟨f, hf, hkind, rfl⟩))
    · intro f hf name hatom
      obtain ⟨hkind, rfl⟩ := (hname .right hf).1 hatom
      exact (hagrees _).2 (mem_tail_modelLines.2 (.inr ⟨f, hf, hkind, rfl⟩))
  · rintro ⟨hleft, hright⟩ name
    constructor
    · intro hline
      rcases mem_tail_modelLines.1 hline with ⟨f, hf, hkind, htext⟩ | ⟨f, hf, -, htext⟩
      · exact hleft f hf name ((hname .left hf).2 ⟨hkind, (String.append_left_inj _).1 htext⟩)
      · exact absurd htext.symm (true_line_ne_false_line _ _)
    · intro hline
      rcases mem_tail_modelLines.1 hline with ⟨f, hf, -, htext⟩ | ⟨f, hf, hkind, htext⟩
      · exact absurd htext (true_line_ne_false_line _ _)
      · exact hright f hf name ((hname .right hf).2 ⟨hkind, (String.append_left_inj _).1 htext⟩)

/-- **The printed lines are the leaf** where equivalences are expanded: a valuation agrees with them
if and only if the leaf fails under it. -/
theorem agrees_modelLines_iff (hs : s.WellFormed) (hexpand : s.policy.equivalence = .expand)
    (howns : s.OwnsSequent leaf) (hsat : leaf.Saturated) :
    Agrees v (s.modelLines leaf).tail ↔ leaf.Fails fun f => (s.tree f).eval v := by
  have heval {f : Formula} {name : String} (hname : s.name? f = some name) :
      (s.tree f).eval v = v name := by
    rw [tree_atom (name?_eq_some_iff.1 hname), Expr.eval]
  -- every formula of the leaf is an atom
  have hatom : ∀ side, ∀ f ∈ leaf.side side, ∃ name, s.name? f = some name := fun side f hf =>
    exists_name?_of_saturated hs hexpand (howns side f hf) (hsat side f hf)
  rw [agrees_modelLines_iff_names hs howns]
  constructor
  · rintro ⟨hleft, hright⟩
    constructor
    · intro f hf
      obtain ⟨name, hname⟩ := hatom .left f hf
      exact (heval hname).trans (hleft f hf name hname)
    · intro f hf
      obtain ⟨name, hname⟩ := hatom .right f hf
      exact (heval hname).trans (hright f hf name hname)
  · rintro ⟨hleft, hright⟩
    constructor
    · intro f hf name hname
      exact (heval hname).symm.trans (hleft f hf)
    · intro f hf name hname
      exact (heval hname).symm.trans (hright f hf)

end Store

/-! ### Refutations -/

namespace Search

/-- **A saturated leaf is a counter-model**, with or without a limit.  No rule applies to it and it
cannot be closed; it fails under some assignment, and the problem fails under every such one.  If
equivalences are expanded, some valuation agrees with the printed lines, and the problem fails
classically under every valuation that does. -/
theorem saturated_leaf_refutes_problem {s : Store} (hs : s.Reachable) {problem : Sequent}
    (hproblem : s.OwnsSequent problem) {limit : Option Nat} {run : Run}
    (hrun : s.search limit problem = .ok run) {leaf : Sequent}
    (hleaf : run.result = .saturated leaf) :
    leaf.Saturated ∧ leaf.isAxiom = false ∧
      (∃ α : Assignment, leaf.Fails (s.eval α)) ∧
      (∀ α : Assignment, leaf.Fails (s.eval α) → problem.Fails (s.eval α)) ∧
      (s.policy.equivalence = .expand →
        (∃ v, s.Respects v ∧ Agrees v (s.modelLines leaf).tail) ∧
        ∀ v, s.Respects v → Agrees v (s.modelLines leaf).tail →
          problem.Fails fun f => (s.tree f).eval v) := by
  have hwf := hs.wellFormed
  obtain ⟨run', hrun', hsettles⟩ := search_settles hwf hproblem limit
  rw [hrun] at hrun'
  cases hrun'
  rw [hleaf] at hsettles
  cases hsettles with
  | saturated _ howns hsat hax hfails =>
    obtain ⟨α, hα⟩ := leaf.exists_fails_of_saturated s hsat hax
    refine ⟨hsat, hax, ⟨α, hα⟩, hfails, fun hexpand => ⟨?_, fun v hv hagrees => ?_⟩⟩
    · -- the values that `α` gives to the atoms are as printed
      refine ⟨s.valuation α, Store.respects_valuation hwf α, ?_⟩
      rw [Store.agrees_modelLines_iff hwf hexpand howns hsat]
      exact (Store.fails_valuation_iff hwf hexpand α howns).2 hα
    · rw [Store.agrees_modelLines_iff hwf hexpand howns hsat] at hagrees
      -- the valuation is an assignment, and the leaf fails under it
      have hvalue : s.eval (Store.assignment hwf hv) = fun f => (s.tree f).eval v :=
        funext (Store.eval_assignment hwf hv)
      rw [← hvalue] at hagrees ⊢
      exact hfails _ hagrees

/-- `p | q, r => p & r` is refuted by `q` and `r` without `p`, as it is printed. -/
theorem saturated_leaf_refutes_disjunction :
    let problem : SequentExpr :=
      ⟨[.binary .or (.atom "p") (.atom "q"), .atom "r"], [.binary .and (.atom "p") (.atom "r")]⟩
    let built := problem.build (.ofPolicy {})
    ∃ run leaf, built.2.search (some 10) built.1 = .ok run ∧ run.result = .saturated leaf ∧
      (built.2.modelLines leaf).tail = ["q = true", "r = true", "p = false"] ∧
      ∀ v, built.2.Respects v → Agrees v ["q = true", "r = true", "p = false"] →
        built.1.Fails fun f => (built.2.tree f).eval v := by
  intro problem built
  have hpolicy := Store.reachable_ofPolicy {}
  obtain ⟨hgrows, howns⟩ := Store.grows_build_sequent hpolicy.wellFormed problem
  have hreachable : built.2.Reachable := hpolicy.grow hgrows
  let leaf : Sequent := .ofLists [⟨3, .atomic⟩, ⟨5, .atomic⟩] [⟨2, .atomic⟩]
  have hresult : (built.2.search (some 10) built.1).toOption.map (·.result) =
      some (.saturated leaf) := by decide +kernel
  have hlines : (built.2.modelLines leaf).tail = ["q = true", "r = true", "p = false"] := by
    decide +kernel
  cases hrun : built.2.search (some 10) built.1 with
  | error fault =>
    rw [hrun] at hresult
    cases hresult
  | ok run =>
    have hleaf : run.result = .saturated leaf := by simpa [hrun, Except.toOption] using hresult
    obtain ⟨-, -, -, -, hexpand⟩ := saturated_leaf_refutes_problem hreachable howns hrun hleaf
    exact ⟨run, leaf, rfl, hleaf, hlines, hlines ▸ (hexpand rfl).2⟩

end Search

end SequentCalculus
