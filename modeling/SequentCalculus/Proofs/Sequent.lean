import SequentCalculus.Proofs.Store.Reachable
import SequentCalculus.Strategy
import Mathlib.Data.List.Perm.Subperm

/-!
# Occurrences in sequents

A cedent is kept in order, so it is determined by its occurrences up to permutation
(`Cedent.eq_of_perm`); adding a formula and taking it away again are therefore inverse to each
other as equations between cedents (`Cedent.erase_add`, `Cedent.add_erase`), and so they are on a
side of a sequent.

The tests on sequents are exact: `Sequent.isAxiom_iff` says when a sequent is an axiom, whichever
of the two sides is gone through for a common formula, `Sequent.nextRule_cases` says which rule the
strategy chooses, and `Sequent.applicableRules_eq_nil_iff` when there is none to choose from.
-/

namespace SequentCalculus

/-! ### Tables -/

/-- Strictly ordered lists with the same members are equal. -/
theorem eq_of_pairwise_lt {fs gs : List Formula} (hfs : fs.Pairwise (· < ·))
    (hgs : gs.Pairwise (· < ·)) (h : ∀ f, f ∈ fs ↔ f ∈ gs) : fs = gs := by
  have hperm : fs.Perm gs :=
    (List.perm_ext_iff_of_nodup (nodup_of_pairwise_lt hfs) (nodup_of_pairwise_lt hgs)).2 h
  exact hperm.eq_of_pairwise (fun _ _ _ _ => Formula.le_antisymm) (hfs.imp Formula.le_of_lt)
    (hgs.imp Formula.le_of_lt)

/-- A table of counts is put together again from what can be looked up in it. -/
theorem Counts.map_countOf {counts : Counts} (h : counts.formulas.Pairwise (· < ·)) :
    counts.formulas.map (fun f => (f, counts.countOf f)) = counts := by
  induction counts with
  | nil => rfl
  | cons entry counts ih =>
    obtain ⟨g, n⟩ := entry
    obtain ⟨hg, hcounts⟩ := List.pairwise_cons.1 h
    rw [formulas_cons, List.map_cons, countOf_cons, if_pos rfl]
    refine congrArg ((g, n) :: ·) ((List.map_congr_left fun f hf => ?_).trans (ih hcounts))
    rw [countOf_cons, if_neg (Ne.symm (Formula.ne_of_lt (hg f hf)))]

/-- Every place in a table by kinds is that of some kind. -/
theorem Kind.exists_rank_eq {i : Nat} (hi : i < Kind.count) : ∃ kind : Kind, kind.rank = i := by
  match i, hi with
  | 0, _ => exact ⟨.atomic, rfl⟩
  | 1, _ => exact ⟨.compound (.bin .and), rfl⟩
  | 2, _ => exact ⟨.compound (.bin .or), rfl⟩
  | 3, _ => exact ⟨.compound (.bin .implies), rfl⟩
  | 4, _ => exact ⟨.compound (.bin .iff), rfl⟩
  | 5, _ => exact ⟨.compound .not, rfl⟩

/-- **Tables of the same occurrences are equal**, in each of their forms. -/
theorem Tables.Consistent.eq_of_perm {t u : Tables} (ht : t.Consistent) (hu : u.Consistent)
    (h : t.counts.occurrences.Perm u.counts.occurrences) : t = u := by
  -- the same formulas occur, and each of them as often
  have hformulas : t.counts.formulas = u.counts.formulas :=
    eq_of_pairwise_lt ht.ordered hu.ordered fun f => by
      rw [← ht.mem_occurrences_iff, h.mem_iff, hu.mem_occurrences_iff]
  have hcounts : t.counts = u.counts := by
    rw [← Counts.map_countOf ht.ordered, ← Counts.map_countOf hu.ordered, hformulas]
    refine List.map_congr_left fun f _ => ?_
    rw [← Counts.count_occurrences ht.ordered, h.count_eq, Counts.count_occurrences hu.ordered]
  -- what is kept beside the counts is determined by them
  have hbyKind : t.byKind = u.byKind := by
    refine Vector.ext fun i hi => ?_
    obtain ⟨kind, rfl⟩ := Kind.exists_rank_eq hi
    show t.ofKind kind = u.ofKind kind
    refine eq_of_pairwise_lt (ht.ordered_ofKind kind) (hu.ordered_ofKind kind) fun f => ?_
    rw [ht.mem_ofKind, hu.mem_ofKind, hformulas]
  have hsize : t.size = u.size := by rw [ht.size_eq, hu.size_eq, hcounts]
  cases t
  cases u
  simp_all

/-! ### Cedents -/

namespace Cedent

variable {c d : Cedent} {f g : Formula}

/-- Each formula is counted as often as it occurs. -/
theorem count_eq (c : Cedent) (f : Formula) : c.count f = c.occurrences.count f :=
  (Counts.count_occurrences c.consistent.ordered f).symm

theorem size_eq (c : Cedent) : c.size = c.occurrences.length :=
  c.consistent.size_eq.trans (Counts.length_occurrences c.counts).symm

theorem isEmpty_eq (c : Cedent) : c.isEmpty = c.occurrences.isEmpty := by
  rw [isEmpty, size_eq]
  cases c.occurrences <;> rfl

@[simp] theorem occurrences_empty : empty.occurrences = [] := rfl

/-- **Cedents with the same occurrences are equal.** -/
theorem eq_of_perm (h : c.occurrences.Perm d.occurrences) : c = d := by
  have htables := c.consistent.eq_of_perm d.consistent h
  cases c
  cases d
  simp_all

theorem mem_add : g ∈ c.add f ↔ g = f ∨ g ∈ c := by
  rw [mem_def, (c.perm_add f).mem_iff, List.mem_cons]
  rfl

/-- Taking a formula away leaves only formulas that were there. -/
theorem mem_of_mem_erase (h : g ∈ c.erase f) : g ∈ c := by
  by_cases hf : f ∈ c
  · exact (perm_erase hf).mem_iff.2 (List.mem_cons_of_mem f h)
  · rwa [erase_of_notMem hf] at h

theorem erase_add (c : Cedent) (f : Formula) : (c.add f).erase f = c := by
  have hmem : f ∈ c.add f := mem_add.2 (.inl rfl)
  have hperm := (perm_erase hmem).symm.trans (c.perm_add f)
  exact eq_of_perm (List.perm_cons f |>.1 hperm)

theorem add_erase (h : f ∈ c) : (c.erase f).add f = c :=
  eq_of_perm (((c.erase f).perm_add f).trans (perm_erase h).symm)

theorem mem_distinct : f ∈ c.distinct ↔ f ∈ c :=
  mem_iff_mem_formulas.symm

theorem nodup_distinct (c : Cedent) : c.distinct.Nodup :=
  nodup_of_pairwise_lt c.consistent.ordered

theorem mem_ofKind {kind : Kind} : f ∈ c.ofKind kind ↔ f ∈ c ∧ f.kind = kind := by
  rw [c.consistent.mem_ofKind, mem_iff_mem_formulas]

/-- Formulas of one kind are ordered by their places alone. -/
theorem pairwise_index_ofKind (c : Cedent) (kind : Kind) :
    (c.ofKind kind).Pairwise fun f g => f.index < g.index := by
  refine (c.consistent.ordered_ofKind kind).imp_of_mem fun {f g} hf hg hlt => ?_
  have hrank : f.kind.rank = g.kind.rank := by rw [(mem_ofKind.1 hf).2, (mem_ofKind.1 hg).2]
  rw [Formula.lt_def] at hlt
  omega

/-- Looking for the formulas of one cedent in another one finds what they share. -/
theorem any_distinct_iff : (c.distinct.any fun f => f ∈ d) = true ↔ ∃ f, f ∈ c ∧ f ∈ d := by
  simp [List.any_eq_true, mem_distinct]

/-- The shorter side is gone through, but the answer does not depend on which one that is. -/
theorem meets_iff : c.meets d = true ↔ ∃ f, f ∈ c ∧ f ∈ d := by
  unfold meets
  split
  · exact any_distinct_iff
  · simp only [any_distinct_iff, and_comm]

theorem get?_eq_some {kind : Kind} (h : c.get? kind = some f) : f ∈ c ∧ f.kind = kind :=
  mem_ofKind.1 (List.mem_of_head? h)

/-- If no formula of a kind is found, there is none. -/
theorem get?_eq_none {kind : Kind} (h : c.get? kind = none) (hf : f ∈ c) : f.kind ≠ kind := by
  intro hkind
  have hmem := mem_ofKind.2 ⟨hf, hkind⟩
  rw [List.head?_eq_none_iff.1 h] at hmem
  cases hmem

/-- The test is negative exactly if no formula can be taken apart. -/
theorem hasDecomposable_eq_false_iff :
    c.hasDecomposable = false ↔ ∀ f ∈ c, ∀ shape : Shape, f.kind ≠ shape.kind := by
  have hall : ∀ shape : Shape, shape ∈ Shape.all := by
    intro shape
    cases shape <;> simp [Shape.all]
  simp only [hasDecomposable, List.any_eq_false, Bool.not_eq_true, Bool.not_eq_false',
    List.isEmpty_iff, List.eq_nil_iff_forall_not_mem, mem_ofKind, not_and, hall, forall_const]
  exact ⟨fun h f hf shape => h shape f hf, fun h shape f hf => h f hf shape⟩

theorem mem_of_firstDecomposable? (h : c.firstDecomposable? = some f) :
    f ∈ c ∧ ∃ shape : Shape, f.kind = shape.kind := by
  obtain ⟨shape, -, hget⟩ := List.exists_of_findSome?_eq_some h
  obtain ⟨hmem, hkind⟩ := get?_eq_some hget
  exact ⟨hmem, shape, hkind⟩

theorem firstDecomposable?_eq_none (h : c.firstDecomposable? = none) (hf : f ∈ c)
    (shape : Shape) : f.kind ≠ shape.kind := by
  have hall : shape ∈ Shape.all := by cases shape <;> simp [Shape.all]
  exact get?_eq_none (List.findSome?_eq_none_iff.1 h shape hall) hf

end Cedent

/-! ### Sequents -/

namespace Sequent

variable {q : Sequent} {side side' : Side} {f g : Formula}

theorem mem_side_add :
    g ∈ (q.add side f).side side' ↔ (side' = side ∧ g = f) ∨ g ∈ q.side side' := by
  cases side <;> cases side' <;> simp [add, Sequent.side, Cedent.mem_add]

theorem mem_of_mem_side_erase (h : g ∈ (q.erase side f).side side') : g ∈ q.side side' := by
  cases side with
  | left =>
    cases side' with
    | left => exact Cedent.mem_of_mem_erase h
    | right => exact h
  | right =>
    cases side' with
    | left => exact h
    | right => exact Cedent.mem_of_mem_erase h

theorem erase_add (q : Sequent) (side : Side) (f : Formula) : (q.add side f).erase side f = q := by
  cases side
  · show (⟨(q.left.add f).erase f, q.right⟩ : Sequent) = q
    rw [Cedent.erase_add]
  · show (⟨q.left, (q.right.add f).erase f⟩ : Sequent) = q
    rw [Cedent.erase_add]

theorem add_erase (h : f ∈ q.side side) : (q.erase side f).add side f = q := by
  cases side
  · have hleft : f ∈ q.left := h
    show (⟨(q.left.erase f).add f, q.right⟩ : Sequent) = q
    rw [Cedent.add_erase hleft]
  · have hright : f ∈ q.right := h
    show (⟨q.left, (q.right.erase f).add f⟩ : Sequent) = q
    rw [Cedent.add_erase hright]

theorem addAll_cons (q : Sequent) (addition : Side × Formula)
    (additions : List (Side × Formula)) :
    q.addAll (addition :: additions) = (q.add addition.1 addition.2).addAll additions :=
  rfl

/-- Whatever the order of the additions, each of them ends up on its side. -/
theorem mem_side_addAll {additions : List (Side × Formula)} :
    g ∈ (q.addAll additions).side side ↔ (side, g) ∈ additions ∨ g ∈ q.side side := by
  induction additions generalizing q with
  | nil => simp [addAll]
  | cons addition additions ih =>
    rw [addAll_cons, ih, mem_side_add, List.mem_cons, Prod.ext_iff]
    rw [or_left_comm, or_assoc]

theorem mem_left_ofLists {left right : List Formula} :
    f ∈ (ofLists left right).left ↔ f ∈ left := by
  show f ∈ (ofLists left right).side .left ↔ f ∈ left
  rw [ofLists, mem_side_addAll, mem_side_addAll]
  simp [Sequent.side, empty, Cedent.mem_def]

theorem mem_right_ofLists {left right : List Formula} :
    f ∈ (ofLists left right).right ↔ f ∈ right := by
  show f ∈ (ofLists left right).side .right ↔ f ∈ right
  rw [ofLists, mem_side_addAll, mem_side_addAll]
  simp [Sequent.side, empty, Cedent.mem_def]

/-- **What is added to a side** comes to what was there, as often as it is added. -/
theorem perm_side_addAll (q : Sequent) (additions : List (Side × Formula)) (side : Side) :
    ((q.addAll additions).side side).occurrences.Perm
      ((additions.filter (·.1 = side)).map (·.2) ++ (q.side side).occurrences) := by
  induction additions generalizing q with
  | nil => exact List.Perm.refl _
  | cons addition additions ih =>
    obtain ⟨side', f⟩ := addition
    rw [addAll_cons]
    refine (ih _).trans ?_
    by_cases hside : side' = side
    · -- the formula comes to this side, where its place among the others does not matter
      subst hside
      have hadd : ((q.add side' f).side side').occurrences.Perm
          (f :: (q.side side').occurrences) := by
        cases side' <;> exact Cedent.perm_add _ f
      rw [List.filter_cons_of_pos (by simp), List.map_cons]
      exact (hadd.append_left _).trans List.perm_middle
    · -- the formula comes to the other side
      have hkeep : (q.add side' f).side side = q.side side := by
        cases side' <;> cases side <;> first | rfl | exact absurd rfl hside
      rw [List.filter_cons_of_neg (by simpa using hside), hkeep]

theorem perm_side_ofLists (left right : List Formula) (side : Side) :
    ((ofLists left right).side side).occurrences.Perm
      (match side with
        | .left => left
        | .right => right) := by
  refine (perm_side_addAll _ _ side).trans (((perm_side_addAll _ _ side).append_left _).trans ?_)
  cases side <;> simp [Function.comp_def, List.filter_eq_self.2, List.filter_eq_nil_iff.2,
    Sequent.side, empty]

/-- A sequent is put together again from the lists of its occurrences. -/
theorem ofLists_occurrences (q : Sequent) :
    ofLists q.left.occurrences q.right.occurrences = q := by
  have hleft : (ofLists q.left.occurrences q.right.occurrences).left = q.left :=
    Cedent.eq_of_perm (perm_side_ofLists _ _ .left)
  have hright : (ofLists q.left.occurrences q.right.occurrences).right = q.right :=
    Cedent.eq_of_perm (perm_side_ofLists _ _ .right)
  cases q
  exact congrArg₂ Sequent.mk hleft hright

/-- **When a sequent is an axiom.** -/
theorem isAxiom_iff : q.isAxiom = true ↔
    .falsum ∈ q.left ∨ .verum ∈ q.right ∨ ∃ f, f ∈ q.left ∧ f ∈ q.right := by
  simp [isAxiom, Cedent.meets_iff, or_assoc]

/-- No formula of the sequent can be taken apart. -/
def Saturated (q : Sequent) : Prop :=
  ∀ side, ∀ f ∈ q.side side, ∀ shape : Shape, f.kind ≠ shape.kind

/-- **What the strategy chooses**: to take a formula apart where it stands, as long as there is
one, and then the closing rule, but not twice. -/
theorem nextRule_cases (q : Sequent) (last : LastStep) :
    (∃ side shape f, q.nextRule last = some (.logical side shape f) ∧ f ∈ q.side side ∧
      f.kind = shape.kind) ∨
    (q.Saturated ∧ last ≠ .closing ∧ q.nextRule last = some .ax) ∨
    (q.Saturated ∧ last = .closing ∧ q.nextRule last = none) := by
  unfold nextRule
  -- the right side is looked at if there is nothing to take apart on the left
  cases hleft : q.left.firstDecomposable? with
  | some f =>
    obtain ⟨hmem, shape, hkind⟩ := Cedent.mem_of_firstDecomposable? hleft
    refine .inl ⟨.left, shape, f, ?_, hmem, hkind⟩
    simp [Rule.takingApart?, Kind.shape?_eq_some_iff.2 hkind]
  | none =>
    cases hright : q.right.firstDecomposable? with
    | some f =>
      obtain ⟨hmem, shape, hkind⟩ := Cedent.mem_of_firstDecomposable? hright
      refine .inl ⟨.right, shape, f, ?_, hmem, hkind⟩
      simp [Rule.takingApart?, Kind.shape?_eq_some_iff.2 hkind]
    | none =>
      have hsat : q.Saturated := by
        intro side f hf shape
        cases side with
        | left => exact Cedent.firstDecomposable?_eq_none hleft hf shape
        | right => exact Cedent.firstDecomposable?_eq_none hright hf shape
      by_cases hlast : last = .closing
      · exact .inr (.inr ⟨hsat, hlast, by simp [hlast]⟩)
      · exact .inr (.inl ⟨hsat, hlast, by simp [hlast]⟩)

/-- On a saturated sequent the strategy looks at the last step only. -/
theorem Saturated.nextRule_eq (h : q.Saturated) (last : LastStep) :
    q.nextRule last = if last = .closing then none else some .ax := by
  rcases q.nextRule_cases last with
    ⟨side, shape, f, -, hmem, hkind⟩ | ⟨-, hlast, hrule⟩ | ⟨-, hlast, hrule⟩
  · exact absurd hkind (h side f hmem shape)
  · rw [hrule, if_neg hlast]
  · rw [hrule, if_pos hlast]

/-- **When a branch is finished.** -/
theorem nextRule_eq_none_iff {last : LastStep} :
    q.nextRule last = none ↔ q.Saturated ∧ last = .closing := by
  constructor
  · intro h
    rcases q.nextRule_cases last with ⟨_, _, _, hrule, -, -⟩ | ⟨-, -, hrule⟩ | ⟨hsat, hlast, -⟩
    · rw [h] at hrule
      cases hrule
    · rw [h] at hrule
      cases hrule
    · exact ⟨hsat, hlast⟩
  · rintro ⟨hsat, rfl⟩
    exact hsat.nextRule_eq .closing

/-- The closing rule is chosen when there is nothing to take apart. -/
theorem saturated_of_nextRule_ax {last : LastStep} (h : q.nextRule last = some .ax) :
    q.Saturated := by
  rcases q.nextRule_cases last with ⟨_, _, _, hrule, -, -⟩ | ⟨hsat, -, -⟩ | ⟨hsat, -, -⟩
  · rw [h] at hrule
    cases hrule
  · exact hsat
  · exact hsat

/-- While there is a formula to be taken apart, the strategy does not look at the last step. -/
theorem nextRule_eq_of_logical {shape : Shape} {last : LastStep}
    (h : q.nextRule last = some (.logical side shape f)) (last' : LastStep) :
    q.nextRule last' = some (.logical side shape f) := by
  unfold nextRule at h ⊢
  split at h
  · exact h
  · split at h
    · exact h
    · split at h <;> cases h

/-- The test for formulas that can be taken apart is exact. -/
theorem saturated_iff_hasDecomposable : q.Saturated ↔ q.hasDecomposable = false := by
  rw [hasDecomposable, Bool.or_eq_false_iff, Cedent.hasDecomposable_eq_false_iff,
    Cedent.hasDecomposable_eq_false_iff]
  constructor
  · intro h
    exact ⟨h .left, h .right⟩
  · rintro ⟨hleft, hright⟩ (_ | _)
    · exact hleft
    · exact hright

/-! ### Applicable rules -/

/-- Each formula that is listed under a shape has the rule of that shape. -/
theorem filterMap_takingApart? (c : Cedent) (side : Side) (shape : Shape) :
    (c.ofKind shape.kind).filterMap (Rule.takingApart? side) =
      (c.ofKind shape.kind).map (.logical side shape) := by
  rw [List.filterMap_eq_map_iff_forall_eq_some]
  intro f hf
  rw [Rule.takingApart?, Kind.shape?_eq_some_iff.2 (Cedent.mem_ofKind.1 hf).2, Option.map_some]

theorem applicableRules_eq (q : Sequent) : q.applicableRules =
    Shape.all.flatMap (fun shape => (q.left.ofKind shape.kind).map (.logical .left shape) ++
      (q.right.ofKind shape.kind).map (.logical .right shape)) ++
      if q.isAxiom then [.ax] else [] := by
  simp only [applicableRules, filterMap_takingApart?]

/-- A logical rule is listed if its formula stands on its side and has its kind. -/
theorem logical_mem_applicableRules {shape : Shape} :
    .logical side shape f ∈ q.applicableRules ↔ f ∈ q.side side ∧ f.kind = shape.kind := by
  have hax : (.logical side shape f : Rule) ∉ if q.isAxiom then [Rule.ax] else [] := by
    split <;> simp
  have hall : ∀ shape : Shape, shape ∈ Shape.all := by
    intro shape
    cases shape <;> simp [Shape.all]
  cases side <;>
    simp [applicableRules_eq, hax, hall, Cedent.mem_ofKind, Sequent.side]

/-- The closing rule is listed for axioms. -/
theorem ax_mem_applicableRules : .ax ∈ q.applicableRules ↔ q.isAxiom = true := by
  simp [applicableRules_eq]

/-- **When no rule is applicable**: there is nothing to take apart, and the sequent is no axiom. -/
theorem applicableRules_eq_nil_iff :
    q.applicableRules = [] ↔ q.Saturated ∧ q.isAxiom = false := by
  rw [List.eq_nil_iff_forall_not_mem]
  constructor
  · intro h
    refine ⟨fun side f hf shape hkind => ?_, ?_⟩
    · exact h _ (logical_mem_applicableRules.2 ⟨hf, hkind⟩)
    · exact Bool.eq_false_iff.2 fun hax => h _ (ax_mem_applicableRules.2 hax)
  · -- a rule that is listed closes an axiom or takes a formula apart
    rintro ⟨hsat, hax⟩ (_ | ⟨side, shape, f⟩) hmem
    · rw [ax_mem_applicableRules, hax] at hmem
      cases hmem
    · obtain ⟨hf, hkind⟩ := logical_mem_applicableRules.1 hmem
      exact hsat side f hf shape hkind

end Sequent

/-! ### Sequents over a store -/

namespace Store

variable {s : Store} {q : Sequent}

/-- Every formula of the sequent is one of the store. -/
def OwnsSequent (s : Store) (q : Sequent) : Prop :=
  ∀ side, ∀ f ∈ q.side side, s.Owns f

theorem OwnsSequent.erase (h : s.OwnsSequent q) (side : Side) (f : Formula) :
    s.OwnsSequent (q.erase side f) :=
  fun side' g hg => h side' g (Sequent.mem_of_mem_side_erase hg)

theorem OwnsSequent.addAll (h : s.OwnsSequent q) {additions : List (Side × Formula)}
    (hadd : ∀ addition ∈ additions, s.Owns addition.2) : s.OwnsSequent (q.addAll additions) := by
  intro side f hf
  rcases Sequent.mem_side_addAll.1 hf with hf | hf
  · exact hadd (side, f) hf
  · exact h side f hf

/-- A side has no more formulas of a kind than its store has formulas. -/
theorem OwnsSequent.length_ofKind_le (h : s.OwnsSequent q) (side : Side) (kind : Kind) :
    ((q.side side).ofKind kind).length ≤ s.size := by
  have hsubset : (q.side side).ofKind kind ⊆ s.formulas := fun f hf =>
    mem_formulas.2 (h side f (Cedent.mem_ofKind.1 hf).1)
  have hnodup := nodup_of_pairwise_lt ((q.side side).consistent.ordered_ofKind kind)
  have hformulas : s.formulas.length = s.size := by simp [formulas, size]
  calc ((q.side side).ofKind kind).length
      ≤ s.formulas.length := (List.subperm_of_subset hnodup hsubset).length_le
    _ = s.size := hformulas

/-- A sequent has no more rules than its store has formulas, for each shape and side, and the
closing rule. -/
theorem OwnsSequent.length_applicableRules_le (h : s.OwnsSequent q) :
    q.applicableRules.length ≤ 8 * s.size + 1 := by
  have hshapes : ∀ shapes : List Shape,
      (shapes.flatMap fun shape => (q.left.ofKind shape.kind).map (Rule.logical .left shape) ++
        (q.right.ofKind shape.kind).map (Rule.logical .right shape)).length ≤
          2 * s.size * shapes.length := by
    intro shapes
    induction shapes with
    | nil => simp
    | cons shape shapes ih =>
      have hleft : (q.left.ofKind shape.kind).length ≤ s.size := h.length_ofKind_le .left _
      have hright : (q.right.ofKind shape.kind).length ≤ s.size := h.length_ofKind_le .right _
      rw [List.flatMap_cons, List.length_append, List.length_append, List.length_map,
        List.length_map, List.length_cons, Nat.mul_succ]
      omega
  have hall := hshapes Shape.all
  have hfour : Shape.all.length = 4 := rfl
  rw [hfour] at hall
  have hax : (if q.isAxiom then [Rule.ax] else []).length ≤ 1 := by split <;> simp
  rw [Sequent.applicableRules_eq, List.length_append]
  omega

/-- Building a sequent is a sequence of interning operations, and the sequent is one of the store
at the end. -/
theorem grows_build_sequent (hs : s.WellFormed) (e : SequentExpr) :
    s.Grows (e.build s).2 ∧ (e.build s).2.OwnsSequent (e.build s).1 := by
  have hleft := grows_buildAll hs e.left
  have hmid := (hleft.extend_wellFormed hs).2
  have hright := grows_buildAll hmid e.right
  have hext := (hright.extend_wellFormed hmid).1
  refine ⟨hleft.trans hright, fun side f hf => ?_⟩
  cases side with
  | left =>
    exact ((map_tree_buildAll hs e.left).1 f (Sequent.mem_left_ofLists.1 hf)).extend hext
  | right => exact (map_tree_buildAll hmid e.right).1 f (Sequent.mem_right_ofLists.1 hf)

/-- A store in which one sequent was built is reachable, and the sequent is one of it. -/
theorem reachable_build_sequent (policy : Policy) (e : SequentExpr) :
    (e.build (ofPolicy policy)).2.Reachable ∧
      (e.build (ofPolicy policy)).2.OwnsSequent (e.build (ofPolicy policy)).1 := by
  have hfresh := reachable_ofPolicy policy
  obtain ⟨hgrows, howns⟩ := grows_build_sequent hfresh.wellFormed e
  exact ⟨hfresh.grow hgrows, howns⟩

end Store

end SequentCalculus
