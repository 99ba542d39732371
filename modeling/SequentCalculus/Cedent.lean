import SequentCalculus.Cedent.Tables
import SequentCalculus.Fault

/-!
# Cedents

A cedent is one side of a sequent: a multiset of formulas, kept as consistent tables.  Everything
that is asked of it is looked up in one of the tables, and the earliest built formula of a kind is
the first one that is listed under it.

What a cedent means is the ordered list of its occurrences.  Adding a formula is a permutation of
consing it (`perm_add`), and whatever depends on the occurrences alone follows from that.
-/

namespace SequentCalculus

/-- A multiset of formulas. -/
structure Cedent extends Tables where
  consistent : toTables.Consistent
  deriving DecidableEq

namespace Cedent

/-- The cedent without formulas. -/
def empty : Cedent := ⟨.empty, Tables.consistent_empty⟩

/-- Every occurrence, in order. -/
def occurrences (c : Cedent) : List Formula :=
  c.counts.occurrences

instance : Membership Formula Cedent where
  mem c f := f ∈ c.occurrences

theorem mem_def {c : Cedent} {f : Formula} : f ∈ c ↔ f ∈ c.occurrences :=
  Iff.rfl

/-- The formulas that occur are those that are counted. -/
theorem mem_iff_mem_formulas {c : Cedent} {f : Formula} : f ∈ c ↔ f ∈ c.counts.formulas :=
  c.consistent.mem_occurrences_iff

instance (c : Cedent) (f : Formula) : Decidable (f ∈ c) :=
  decidable_of_iff _ mem_iff_mem_formulas.symm

theorem sorted (c : Cedent) : c.occurrences.Pairwise (· ≤ ·) := by
  refine List.pairwise_flatMap.2 ⟨fun entry _ => ?_, ?_⟩
  · exact List.pairwise_replicate.2 (.inr ((Formula.le_total _ _).elim id id))
  · refine (List.pairwise_map.1 c.consistent.ordered).imp fun hlt x hx y hy => ?_
    rw [(List.mem_replicate.1 hx).2, (List.mem_replicate.1 hy).2]
    exact Formula.le_of_lt hlt

/-- The cedent with one more occurrence of `f`. -/
def add (c : Cedent) (f : Formula) : Cedent :=
  ⟨c.toTables.add f, c.consistent.add f⟩

/-- The cedent with one occurrence less of `f`, if there is one. -/
def erase (c : Cedent) (f : Formula) : Cedent :=
  ⟨c.toTables.erase f, c.consistent.erase f⟩

/-- The cedent with one occurrence less of `f`, which must be there. -/
def remove (c : Cedent) (f : Formula) : Except Fault Cedent :=
  if f ∈ c then .ok (c.erase f) else .error (.removedAbsent f)

theorem perm_add (c : Cedent) (f : Formula) :
    (c.add f).occurrences.Perm (f :: c.occurrences) :=
  Counts.perm_increment f c.counts

theorem perm_erase {c : Cedent} {f : Formula} (h : f ∈ c) :
    c.occurrences.Perm (f :: (c.erase f).occurrences) := by
  have hcounted := mem_iff_mem_formulas.1 h
  have herase : (c.erase f).counts = c.counts.decrement f := by
    show (c.toTables.erase f).counts = _
    rw [Tables.erase, if_pos hcounted]
  unfold occurrences
  rw [herase]
  exact Counts.perm_decrement c.consistent.positive hcounted

/-- Nothing is taken away where there is nothing. -/
theorem erase_of_notMem {c : Cedent} {f : Formula} (h : f ∉ c) : c.erase f = c := by
  have herase : c.toTables.erase f = c.toTables :=
    if_neg fun hcounted => h (mem_iff_mem_formulas.2 hcounted)
  cases c
  simp_all [erase]

/-! ### Views -/

/-- Whether there is no formula. -/
def isEmpty (c : Cedent) : Bool :=
  c.size == 0

/-- The number of occurrences of `f`. -/
def count (c : Cedent) (f : Formula) : Nat :=
  c.counts.countOf f

/-- The formulas without their repetitions, in order. -/
def distinct (c : Cedent) : List Formula :=
  c.counts.formulas

/-- The earliest built formula of a kind. -/
def get? (c : Cedent) (kind : Kind) : Option Formula :=
  (c.ofKind kind).head?

/-- Whether some rule takes one of the formulas apart. -/
def hasDecomposable (c : Cedent) : Bool :=
  Shape.all.any fun shape => !(c.ofKind shape.kind).isEmpty

/-- The formula that is taken apart first: by shape, then by order. -/
def firstDecomposable? (c : Cedent) : Option Formula :=
  Shape.all.findSome? fun shape => c.get? shape.kind

/-- Whether two cedents share a formula.  Only the one with fewer formulas is gone through. -/
def meets (c d : Cedent) : Bool :=
  if c.distinct.length ≤ d.distinct.length then c.distinct.any (· ∈ d)
  else d.distinct.any (· ∈ c)

end Cedent

end SequentCalculus
