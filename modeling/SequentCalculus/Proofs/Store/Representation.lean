import SequentCalculus.Proofs.Sequent
import Mathlib.Data.List.Nodup

/-!
# The representation of formulas in a store

A store keeps its formulas in several forms at once: the nodes, the two tables through which nodes
are looked up, the six lists by kind, and the handles that its callers hold.  A `History` is what
the callers of a store have seen of it, any number of calls of its builders with all the handles
that they have returned.  After every history the forms agree:

* the tables give the formulas for the keys of their nodes, and for no other keys;
* the lists by kind are in order and share out all places among them
  (`Coherent.perm_ofKind`);
* the handles are still the formulas at their places.

All of this follows from the invariant of reachable stores, since a history is a sequence of
interning operations (`History.grows`).
-/

namespace SequentCalculus.Store

/-! ### Histories -/

/-- One call of a builder, with the formulas that it returns.  The formulas that it is given are
formulas of the store. -/
inductive Builds : Store → List Formula → Store → Prop
  | atom (s : Store) (name : String) : Builds s [(s.atom name).1] (s.atom name).2
  | compound {s t : Store} {connective : Connective} {parts : List Formula} {f : Formula}
      (hparts : ∀ part ∈ parts, s.Owns part) (h : s.compound connective parts = .ok (f, t)) :
      Builds s [f] t
  | not {s : Store} {a : Formula} (ha : s.Owns a) : Builds s [(s.not a).1] (s.not a).2
  | binary {s : Store} (op : BinOp) {a b : Formula} (ha : s.Owns a) (hb : s.Owns b) :
      Builds s [(s.binary op a b).1] (s.binary op a b).2
  | expr (s : Store) (e : Expr) : Builds s [(e.build s).1] (e.build s).2
  | sequent (s : Store) (e : SequentExpr) :
      Builds s ((e.build s).1.left.occurrences ++ (e.build s).1.right.occurrences) (e.build s).2

/-- Any number of calls, one after the other, with all the formulas that they return. -/
inductive History : Store → List Formula → Store → Prop
  | nil (s : Store) : History s [] s
  | snoc {s t u : Store} {returned more : List Formula} (hst : History s returned t)
      (htu : t.Builds more u) : History s (returned ++ more) u

section Histories

variable {s t : Store} {returned : List Formula}

/-- A call interns, and returns formulas of the store that it leaves. -/
theorem Builds.grows (h : s.Builds returned t) (hs : s.WellFormed) :
    s.Grows t ∧ ∀ f ∈ returned, t.Owns f := by
  cases h with
  | atom name => exact ⟨.single (.atom s name), by simpa using (yields_atom hs name).owns⟩
  | compound hparts h =>
    obtain ⟨e, hyields⟩ := yields_compound hs hparts h
    exact ⟨.single (.compound hparts h), by simpa using hyields.owns⟩
  | @not a ha =>
    have hcompound : s.compound .not [a] = .ok (s.not a) := rfl
    exact ⟨.single (.compound (by simpa using ha) hcompound),
      by simpa using (yields_not hs ha).owns⟩
  | @binary op a b ha hb =>
    have hcompound : s.compound (.bin op) [a, b] = .ok (s.binary op a b) := rfl
    exact ⟨.single (.compound (by simpa using ⟨ha, hb⟩) hcompound),
      by simpa using (yields_binary hs op ha hb).owns⟩
  | expr e => exact ⟨grows_build hs e, by simpa using (yields_build hs e).owns⟩
  | sequent e =>
    obtain ⟨hgrows, howns⟩ := grows_build_sequent hs e
    refine ⟨hgrows, fun f hf => ?_⟩
    rcases List.mem_append.1 hf with hleft | hright
    · exact howns .left f hleft
    · exact howns .right f hright

/-- A history interns, and every formula returned on the way is one of the store at the end. -/
theorem History.grows (h : s.History returned t) (hs : s.WellFormed) :
    s.Grows t ∧ ∀ f ∈ returned, t.Owns f := by
  induction h with
  | nil => exact ⟨.refl, by simp⟩
  | snoc _ hstep ih =>
    obtain ⟨hgrows, howns⟩ := ih
    have hwf := (hgrows.extend_wellFormed hs).2
    obtain ⟨hgrows', howns'⟩ := hstep.grows hwf
    refine ⟨hgrows.trans hgrows', fun f hf => ?_⟩
    rcases List.mem_append.1 hf with hold | hnew
    · -- returned by an earlier call, and still there
      exact (howns f hold).extend (hgrows'.extend_wellFormed hwf).1
    · exact howns' f hnew

end Histories

/-! ### Tables -/

section Coherence

variable {s : Store} {f : Formula}

theorem Coherent.lookup_atoms (hs : s.Coherent) {name : String} :
    s.atoms.lookup name = some f ↔ s.nodes[f.index]? = some (.atom name) ∧ f.kind = .atomic := by
  show s.lookup (.inl name) = some f ↔ _
  rw [hs.indexed]
  constructor
  · rintro ⟨node, hnode, hkind, hkey⟩
    obtain rfl : node = .atom name := Node.key_inj hkey
    exact ⟨hnode, hkind.symm⟩
  · rintro ⟨hnode, hkind⟩
    exact ⟨.atom name, hnode, hkind.symm, rfl⟩

/-- The key of a compound node says what its connective is and what its parts are. -/
theorem key_eq_inr_iff {node : Node} {connective : Connective} {first : Formula}
    {second : Option Formula} : node.key = .inr (connective, first, second) ↔
      node.kind = .compound connective ∧ node.parts = first :: second.toList := by
  cases node <;> cases second <;> simp [Node.key, Node.kind, Node.parts]

theorem Coherent.lookup_compounds (hs : s.Coherent) {connective : Connective} {first : Formula}
    {second : Option Formula} :
    s.compounds.lookup (connective, first, second) = some f ↔
      ∃ node, s.nodes[f.index]? = some node ∧ node.parts = first :: second.toList ∧
        node.kind = .compound connective ∧ f.kind = .compound connective := by
  show s.lookup (.inr (connective, first, second)) = some f ↔ _
  rw [hs.indexed]
  refine exists_congr fun node => and_congr_right fun _ => ?_
  rw [key_eq_inr_iff]
  constructor
  · rintro ⟨hkind, hconnective, hparts⟩
    exact ⟨hparts, hconnective, hkind ▸ hconnective⟩
  · rintro ⟨hparts, hconnective, hkind⟩
    exact ⟨hconnective.trans hkind.symm, hconnective, hparts⟩

/-! ### Lists by kind -/

theorem map_index_formulas (s : Store) : s.formulas.map Formula.index = List.range s.size := by
  refine List.ext_getElem (by simp [formulas, size]) fun i _ _ => ?_
  simp [formulas]

theorem Coherent.mem_ofKind (hs : s.Coherent) {kind : Kind} :
    f ∈ s.ofKind kind ↔ s.Owns f ∧ f.kind = kind := by
  rw [hs.listed, List.mem_filter, mem_formulas, beq_iff_eq]

theorem pairwise_formulas (s : Store) : s.formulas.Pairwise fun f g => f.index < g.index := by
  have hrange : (s.formulas.map Formula.index).Pairwise (· < ·) := by
    rw [map_index_formulas]
    exact List.pairwise_lt_range
  exact List.pairwise_map.1 hrange

theorem Coherent.pairwise_ofKind (hs : s.Coherent) (kind : Kind) :
    (s.ofKind kind).Pairwise fun f g => f.index < g.index := by
  rw [hs.listed]
  exact s.pairwise_formulas.filter _

theorem nodup_of_pairwise_index {fs : List Formula}
    (h : fs.Pairwise fun f g => f.index < g.index) : fs.Nodup :=
  h.imp fun hlt heq => absurd (congrArg Formula.index heq) (Nat.ne_of_lt hlt)

/-- **The lists by kind share out all places.** -/
theorem Coherent.perm_ofKind (hs : s.Coherent) :
    ((Kind.all.flatMap s.ofKind).map Formula.index).Perm (List.range s.size) := by
  rw [← map_index_formulas]
  refine List.Perm.map _ ?_
  have hall : ∀ kind : Kind, kind ∈ Kind.all := by
    rintro (_ | _ | _ | _ | _ | _) <;> simp [Kind.all]
  have hnodup : (Kind.all.flatMap s.ofKind).Nodup := by
    refine List.nodup_flatMap.2 ⟨fun kind _ => ?_, ?_⟩
    · exact nodup_of_pairwise_index (hs.pairwise_ofKind kind)
    · -- a formula has one kind only
      have hkinds : Kind.all.Nodup := by decide
      refine hkinds.imp fun {k l} hne f hk hl => hne ?_
      rw [← (hs.mem_ofKind.1 hk).2, (hs.mem_ofKind.1 hl).2]
  refine (List.perm_ext_iff_of_nodup hnodup (nodup_of_pairwise_index s.pairwise_formulas)).2 ?_
  intro f
  rw [List.mem_flatMap, mem_formulas]
  constructor
  · rintro ⟨kind, -, hf⟩
    exact (hs.mem_ofKind.1 hf).1
  · intro hf
    exact ⟨f.kind, hall f.kind, hs.mem_ofKind.2 ⟨hf, rfl⟩⟩

end Coherence

/-! ### After every history -/

/-- **The forms of a store agree after every history**: no node is held twice, the tables hold the
keys of the nodes and nothing else, parts come first, the lists by kind share out the places in
order, the constants are the first two atoms, what the policy builds in another form is not there,
and all handles are good. -/
theorem history_keeps_representation (policy : Policy) {falseName trueName : String}
    (hne : falseName ≠ trueName) :
    ∃ fresh, withConstants policy falseName trueName = .ok fresh ∧
      ∀ (s : Store) (returned : List Formula), fresh.History returned s →
        (∀ (i j : Nat) (node : Node),
          s.nodes[i]? = some node → s.nodes[j]? = some node → i = j) ∧
        (∀ (name : String) (f : Formula), s.atoms.lookup name = some f ↔
          s.nodes[f.index]? = some (.atom name) ∧ f.kind = .atomic) ∧
        (∀ (connective : Connective) (first : Formula) (second : Option Formula) (f : Formula),
          s.compounds.lookup (connective, first, second) = some f ↔
            ∃ node, s.nodes[f.index]? = some node ∧ node.parts = first :: second.toList ∧
              node.kind = .compound connective ∧ f.kind = .compound connective) ∧
        (∀ (i : Nat) (node : Node), s.nodes[i]? = some node →
          ∀ part ∈ node.parts, part.index < i ∧ s.get? part.index = some part) ∧
        (∀ kind : Kind,
          (∀ f, f ∈ s.ofKind kind ↔ s.get? f.index = some f ∧ f.kind = kind) ∧
            (s.ofKind kind).Pairwise fun f g => f.index < g.index) ∧
        ((Kind.all.flatMap s.ofKind).map Formula.index).Perm (List.range s.size) ∧
        (s.nodes[0]? = some (.atom falseName) ∧ s.nodes[1]? = some (.atom trueName)) ∧
        (policy.negation = .asImplication →
          ∀ (i : Nat) (a : Formula), s.nodes[i]? ≠ some (.not a)) ∧
        (policy.negation = .fromImplication →
          ∀ (i : Nat) (a : Formula), s.nodes[i]? ≠ some (.binary .implies a .falsum)) ∧
        (policy.equivalence = .expand →
          ∀ (i : Nat) (a b : Formula), s.nodes[i]? ≠ some (.binary .iff a b)) ∧
        ∀ f ∈ returned, s.get? f.index = some f := by
  have hfresh : withConstants policy falseName trueName =
      .ok (constants policy falseName trueName) := if_neg hne
  refine ⟨_, hfresh, fun s returned hhistory => ?_⟩
  obtain ⟨hgrows, howns⟩ := hhistory.grows (wellFormed_withConstants hfresh)
  obtain ⟨hext, hs⟩ := hgrows.extend_wellFormed (wellFormed_withConstants hfresh)
  obtain ⟨-, hpolicy, hnodes⟩ := withConstants_eq_ok hfresh
  have hadmits : ∀ {i : Nat} {node : Node}, s.nodes[i]? = some node → policy.Admits node := by
    intro i node hnode
    have hadmitted := hs.admitted hnode
    rwa [hext.policy, hpolicy] at hadmitted
  refine ⟨fun i j node => hs.distinct, fun name f => hs.lookup_atoms,
    fun connective first second f => hs.lookup_compounds, fun i node hnode => hs.parts hnode,
    fun kind => ⟨fun f => hs.mem_ofKind, hs.pairwise_ofKind kind⟩, hs.perm_ofKind,
    ⟨hext.nodes (by rw [hnodes]; rfl), hext.nodes (by rw [hnodes]; rfl)⟩, ?_, ?_, ?_, howns⟩
  · intro hneg i a hnode
    exact hadmits hnode hneg
  · intro hneg i a hnode
    exact hadmits hnode ⟨hneg, rfl⟩
  · intro hexpand i a b hnode
    have hkeep : policy.equivalence = .keep := hadmits hnode
    rw [hexpand] at hkeep
    cases hkeep

/-- Where implications to the false constant become negations, expanding `p <=> false` builds `~p`,
`false -> p` and their conjunction. -/
theorem history_keeps_representation_of_expansion :
    "F" ≠ "T" ∧ ∃ fresh, withConstants ⟨.fromImplication, .expand⟩ "F" "T" = .ok fresh ∧
      let built := Expr.build fresh (.binary .iff (.atom "p") .falsum)
      fresh.History [built.1] built.2 ∧ built.1 = ⟨5, .compound (.bin .and)⟩ ∧
        built.2.get? 5 = some built.1 ∧ built.2.ofKind (.compound .not) = [⟨3, .compound .not⟩] ∧
        ((Kind.all.flatMap built.2.ofKind).map Formula.index).Perm [0, 1, 2, 3, 4, 5] ∧
        ∀ (i : Nat) (a : Formula), built.2.nodes[i]? ≠ some (.binary .implies a .falsum) := by
  have hne : "F" ≠ "T" := by decide
  refine ⟨hne, ?_⟩
  obtain ⟨fresh, hfresh, hkeeps⟩ := history_keeps_representation ⟨.fromImplication, .expand⟩ hne
  obtain rfl : constants ⟨.fromImplication, .expand⟩ "F" "T" = fresh := Except.ok.inj hfresh
  refine ⟨_, hfresh, ?_⟩
  intro built
  have hhistory : (constants ⟨.fromImplication, .expand⟩ "F" "T").History [built.1] built.2 :=
    .snoc (.nil _) (.expr _ _)
  obtain ⟨-, -, -, -, -, hperm, -, -, hnone, -, hreturned⟩ := hkeeps built.2 [built.1] hhistory
  have hbuilt : built.1 = ⟨5, .compound (.bin .and)⟩ := by decide
  have hget := hreturned built.1 (by simp)
  rw [hbuilt] at hget
  exact ⟨hhistory, hbuilt, hbuilt ▸ hget, by decide, hperm, hnone rfl⟩

end SequentCalculus.Store
