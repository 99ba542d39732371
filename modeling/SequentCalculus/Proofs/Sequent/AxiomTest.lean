import SequentCalculus.Proofs.Semantics
import SequentCalculus.Proofs.Sequent.Multiset

/-!
# The test for axioms

Whether a sequent is an axiom is read off the tables of its two sides.  The constants are looked up
on the side where they close the sequent.  For a common formula the side with fewer formulas is gone
through, and each of them is looked up on the other side.  The same answer comes of going through
the other one (`Sequent.isAxiomFrom_eq`).

The test is exact in two ways, whatever was done to the sequent before.  It says whether the
multisets on the two sides have what makes an axiom, where the tables must not keep a formula whose
last occurrence was taken away.  And if there is nothing to take apart, it says whether the sequent
holds under every assignment (`Sequent.isAxiom_iff_forall_holds`): an assignment may make just the
left side true unless a constant or a common formula forbids it.
-/

namespace SequentCalculus

/-- A kind is decomposable if it is that of a shape. -/
theorem Kind.isDecomposable_iff {kind : Kind} :
    kind.isDecomposable = true ↔ ∃ shape : Shape, kind = shape.kind := by
  rw [isDecomposable, Option.isSome_iff_exists]
  exact exists_congr fun shape => shape?_eq_some_iff

namespace Sequent

variable {q : Sequent}

/-- The test for axioms that goes through the formulas of one given side. -/
def isAxiomFrom (q : Sequent) (side : Side) : Bool :=
  Formula.falsum ∈ q.left || Formula.verum ∈ q.right ||
    match side with
    | .left => q.left.distinct.any (· ∈ q.right)
    | .right => q.right.distinct.any (· ∈ q.left)

/-- **It does not matter which side is gone through.** -/
theorem isAxiomFrom_eq (q : Sequent) (side : Side) : q.isAxiomFrom side = q.isAxiom := by
  rw [Bool.eq_iff_iff, isAxiom_iff]
  cases side with
  | left =>
    simp only [isAxiomFrom, Bool.or_eq_true, decide_eq_true_eq, Cedent.any_distinct_iff, or_assoc]
  | right =>
    simp only [isAxiomFrom, Bool.or_eq_true, decide_eq_true_eq, Cedent.any_distinct_iff, or_assoc]
    refine or_congr_right (or_congr_right (exists_congr fun f => ?_))
    exact and_comm

theorem hasDecomposable_iff :
    q.hasDecomposable = true ↔ ∃ side, ∃ f ∈ q.side side, f.kind.isDecomposable = true := by
  rw [← Bool.not_eq_false, ← saturated_iff_hasDecomposable]
  simp only [Saturated, Kind.isDecomposable_iff, not_forall, Decidable.not_not, exists_prop]

/-- **An axiom is what cannot fail**, if there is nothing to take apart. -/
theorem isAxiom_iff_forall_holds (s : Store) (hsat : q.Saturated) :
    q.isAxiom = true ↔ ∀ α : Assignment, q.Holds (s.eval α) := by
  constructor
  · intro hax α
    exact holds_of_isAxiom s α hax
  · intro hholds
    by_contra hax
    obtain ⟨α, hfails⟩ := q.exists_fails_of_saturated s hsat (Bool.eq_false_iff.2 hax)
    exact not_holds_iff.2 hfails (hholds α)

end Sequent

/-- **Axioms are recognised exactly.**  Let sequents be made and changed in any way, and take one of
them with the multisets that are meant to stand on its two sides.

* The test succeeds exactly if the false constant is on the left, the true constant on the right, or
  some formula on both sides, and it does not matter which side is gone through.
* A sequent that passes it holds under every assignment, in every store.
* The tables say whether there is a formula to take apart.  If there is none, the sequent passes the
  test exactly if it holds under every assignment. -/
theorem axioms_are_recognised_exactly {edits : List Edit} {slots : Nat → Sequent}
    (hslots : Edit.sequents edits = .ok slots) :
    ∃ bags, Edit.multisets edits = some bags ∧ ∀ slot,
      ((slots slot).isAxiom = true ↔
        .falsum ∈ bags slot .left ∨ .verum ∈ bags slot .right ∨
          ∃ f, f ∈ bags slot .left ∧ f ∈ bags slot .right) ∧
      (∀ side, (slots slot).isAxiomFrom side = (slots slot).isAxiom) ∧
      ((slots slot).hasDecomposable = true ↔
        ∃ side, ∃ f ∈ bags slot side, f.kind.isDecomposable = true) ∧
      ∀ s : Store,
        ((slots slot).isAxiom = true → ∀ α : Assignment, (slots slot).Holds (s.eval α)) ∧
        ((slots slot).hasDecomposable = false →
          ((slots slot).isAxiom = true ↔ ∀ α : Assignment, (slots slot).Holds (s.eval α))) := by
  refine ⟨Sequent.bags ∘ slots, Edit.multisets_eq_some hslots, fun slot =>
    ⟨Sequent.isAxiom_iff, (slots slot).isAxiomFrom_eq, Sequent.hasDecomposable_iff,
      fun s => ⟨fun hax α => Sequent.holds_of_isAxiom s α hax, fun hnone => ?_⟩⟩⟩
  exact Sequent.isAxiom_iff_forall_holds s (Sequent.saturated_iff_hasDecomposable.2 hnone)

/-- The false constant is taken from the left of `false, a, true => b <=> c, false`.  What remains
is no axiom although both constants occur, and fails under some assignment.  With the equivalence on
the left as well it is an axiom, whether the three formulas of the left are gone through or the two
of the right. -/
theorem axioms_are_recognised_after_removal :
    let a : Formula := ⟨2, .atomic⟩
    let e : Formula := ⟨5, .compound (.bin .iff)⟩
    let removed : List Edit := [.new 0 [.falsum, a, .verum] [e, .falsum], .remove 0 .left .falsum]
    let added : List Edit := removed ++ [.add 0 .left e]
    (∃ slots, Edit.sequents removed = .ok slots ∧ (slots 0).hasDecomposable = false ∧
        (slots 0).isAxiom = false ∧
        ∀ s : Store, ¬∀ α : Assignment, (slots 0).Holds (s.eval α)) ∧
      ∃ slots, Edit.sequents added = .ok slots ∧ (slots 0).isAxiom = true ∧
        (slots 0).isAxiomFrom .left = true ∧ (slots 0).isAxiomFrom .right = true ∧
        ∀ (s : Store) (α : Assignment), (slots 0).Holds (s.eval α) := by
  intro a e removed added
  have hremoved : ∃ slots bags, Edit.sequents removed = .ok slots ∧
      Edit.multisets removed = some bags ∧ bags 0 .left = {a, .verum} ∧
      bags 0 .right = {e, .falsum} :=
    ⟨_, _, rfl, rfl, by decide, by decide⟩
  have hadded : ∃ slots bags, Edit.sequents added = .ok slots ∧
      Edit.multisets added = some bags ∧ bags 0 .left = {e, a, .verum} ∧
      bags 0 .right = {e, .falsum} :=
    ⟨_, _, rfl, rfl, by decide, by decide⟩
  constructor
  · obtain ⟨slots, bags, hslots, hbags, hleft, hright⟩ := hremoved
    obtain ⟨_, hbags', hexact⟩ := axioms_are_recognised_exactly hslots
    cases hbags.symm.trans hbags'
    obtain ⟨htest, -, hdecomposable, hholds⟩ := hexact 0
    have hleaves : ∀ f ∈ bags 0 .left + bags 0 .right, f.kind.isDecomposable = false := by
      rw [hleft, hright]
      decide
    have hnone : (slots 0).hasDecomposable = false := by
      rw [← Bool.not_eq_true, hdecomposable]
      rintro ⟨side, f, hf, hkind⟩
      have hmem : f ∈ bags 0 .left + bags 0 .right := by
        cases side
        · exact Multiset.mem_add.2 (.inl hf)
        · exact Multiset.mem_add.2 (.inr hf)
      rw [hleaves f hmem] at hkind
      cases hkind
    have hopen : (slots 0).isAxiom = false := by
      rw [← Bool.not_eq_true, htest, hleft, hright]
      have hapart : ∀ f ∈ ({a, .verum} : Multiset Formula), f ∉ ({e, .falsum} : Multiset Formula) :=
        by decide
      rintro (hfalsum | hverum | ⟨f, hf, hf'⟩)
      · exact absurd hfalsum (by decide)
      · exact absurd hverum (by decide)
      · exact hapart f hf hf'
    refine ⟨slots, hslots, hnone, hopen, fun s hall => ?_⟩
    rw [((hholds s).2 hnone).2 hall] at hopen
    cases hopen
  · obtain ⟨slots, bags, hslots, hbags, hleft, hright⟩ := hadded
    obtain ⟨_, hbags', hexact⟩ := axioms_are_recognised_exactly hslots
    cases hbags.symm.trans hbags'
    obtain ⟨htest, hscans, -, hholds⟩ := hexact 0
    have hax : (slots 0).isAxiom = true := by
      refine htest.2 (.inr (.inr ⟨e, ?_, ?_⟩))
      · rw [hleft]
        decide
      · rw [hright]
        decide
    exact ⟨slots, hslots, hax, (hscans .left).trans hax, (hscans .right).trans hax,
      fun s => (hholds s).1 hax⟩

end SequentCalculus
