import SequentCalculus.Proofs.Sequent
import Mathlib.Data.Multiset.AddSub

/-!
# Sequents are pairs of multisets

The three tables of a cedent have to agree after any history of the sequent that it is a side of, in
particular when a formula goes away with its last occurrence and comes back.  A history is a list of
`Edit`s of numbered sequents, which are made from lists of formulas, copied, and changed by one
occurrence at a time.  Beside what an edit does (`Edit.perform`) stands what it is meant to do to a
pair of multisets (`Edit.intended`).

One edit does what it is meant to do (`Edit.toOption_perform`), and by induction so does a history
(`Edit.toOption_performAll`).  Each side then represents its multiset in all of its tables
(`Cedent.Represents`).  Since nothing else is kept, sequents are equal if their multisets are.
-/

namespace SequentCalculus

/-! ### Cedents and multisets -/

namespace Cedent

variable {c : Cedent} {m : Multiset Formula}

/-- **The tables of a cedent say what a multiset holds.** -/
structure Represents (c : Cedent) (m : Multiset Formula) : Prop where
  /-- The formulas that occur are counted, each of them once and as often as it occurs. -/
  counts : c.distinct.Nodup ∧ ∀ f n, (f, n) ∈ c.counts ↔ 0 < n ∧ n = m.count f
  /-- The number of occurrences is the sum of the counts. -/
  size : c.size = sumBy (·.2) c.counts ∧ c.size = m.card
  /-- Under each kind stand the formulas of that kind, each of them once. -/
  ofKind : ∀ kind, (c.ofKind kind).Nodup ∧ ∀ f, f ∈ c.ofKind kind ↔ f ∈ m ∧ f.kind = kind
  /-- What is found for a kind is the formula of that kind with the smallest place. -/
  get : ∀ kind f, c.get? kind = some f ↔
    f ∈ m ∧ f.kind = kind ∧ ∀ g ∈ m, g.kind = kind → f.index ≤ g.index
  /-- All occurrences are gone through, by increasing place. -/
  occurrences : c.occurrences.Pairwise (fun f g => f.index ≤ g.index) ∧
    (c.occurrences : Multiset Formula) = m

theorem mem_counts_iff {f : Formula} {n : Nat} :
    (f, n) ∈ c.counts ↔ 0 < n ∧ n = c.count f := by
  have hcounts := Counts.map_countOf c.consistent.ordered
  constructor
  · intro h
    refine ⟨c.consistent.positive (f, n) h, ?_⟩
    rw [← hcounts] at h
    obtain ⟨g, -, hg⟩ := List.mem_map.1 h
    cases hg
    rfl
  · rintro ⟨hpos, rfl⟩
    have hmem : f ∈ c := by
      rw [count_eq] at hpos
      exact List.count_pos_iff.1 hpos
    rw [← hcounts]
    exact List.mem_map.2 ⟨f, mem_iff_mem_formulas.1 hmem, rfl⟩

theorem get?_eq_some_iff {kind : Kind} {f : Formula} :
    c.get? kind = some f ↔ f ∈ c ∧ f.kind = kind ∧ ∀ g ∈ c, g.kind = kind → f.index ≤ g.index := by
  have hordered := c.pairwise_index_ofKind kind
  have hlisted : ∀ g, g ∈ c.ofKind kind ↔ g ∈ c ∧ g.kind = kind := fun g => mem_ofKind
  unfold get?
  cases hlist : c.ofKind kind with
  | nil =>
    rw [hlist] at hlisted
    simp only [List.head?_nil, reduceCtorEq, false_iff, not_and]
    intro hmem hkind
    cases (hlisted f).2 ⟨hmem, hkind⟩
  | cons first others =>
    rw [hlist] at hlisted hordered
    have hfirst := (hlisted first).1 List.mem_cons_self
    have hleast : ∀ g ∈ c, g.kind = kind → g = first ∨ first.index < g.index := by
      intro g hg hkind
      rcases List.mem_cons.1 ((hlisted g).2 ⟨hg, hkind⟩) with rfl | hothers
      · exact .inl rfl
      · exact .inr ((List.pairwise_cons.1 hordered).1 g hothers)
    rw [List.head?_cons, Option.some.injEq]
    constructor
    · rintro rfl
      refine ⟨hfirst.1, hfirst.2, fun g hg hkind => ?_⟩
      rcases hleast g hg hkind with rfl | hlt
      · exact Nat.le_refl _
      · exact Nat.le_of_lt hlt
    · rintro ⟨hmem, hkind, hsmallest⟩
      rcases hleast f hmem hkind with rfl | hlt
      · rfl
      · exact absurd (hsmallest first hfirst.1 hfirst.2) (Nat.not_le_of_lt hlt)

/-- **A cedent represents the multiset of its occurrences**, and no other. -/
theorem represents_iff : c.Represents m ↔ (c.occurrences : Multiset Formula) = m := by
  refine ⟨fun h => h.occurrences.2, ?_⟩
  rintro rfl
  refine ⟨⟨c.nodup_distinct, fun f n => ?_⟩, ⟨c.consistent.size_eq, ?_⟩,
    fun kind => ⟨?_, fun f => ?_⟩, fun kind f => ?_, ?_, rfl⟩
  · rw [mem_counts_iff, count_eq, Multiset.coe_count]
  · rw [size_eq, Multiset.coe_card]
  · exact nodup_of_pairwise_lt (c.consistent.ordered_ofKind kind)
  · exact mem_ofKind
  · exact get?_eq_some_iff
  · refine c.sorted.imp fun hle => ?_
    rw [Formula.le_def] at hle
    omega

end Cedent

/-! ### Sequents and multisets -/

namespace Sequent

variable {q q' : Sequent} {side other : Side} {f g : Formula}

/-- The multisets of the occurrences on the two sides. -/
def bags (q : Sequent) (side : Side) : Multiset Formula :=
  (q.side side).occurrences

/-- **Sequents with the same multisets are equal.** -/
theorem bags_inj : q.bags = q'.bags ↔ q = q' := by
  constructor
  · intro h
    have hside : ∀ side, q.side side = q'.side side := fun side =>
      Cedent.eq_of_perm (Multiset.coe_eq_coe.1 (congrFun h side))
    have hleft : q.left = q'.left := hside .left
    have hright : q.right = q'.right := hside .right
    cases q
    cases q'
    simp_all
  · rintro rfl
    rfl

theorem bags_empty : empty.bags = fun _ => 0 := by
  funext side
  cases side <;> rfl

theorem bags_ofLists (left right : List Formula) : (ofLists left right).bags =
    fun side => match side with
      | .left => (left : Multiset Formula)
      | .right => (right : Multiset Formula) := by
  funext side
  cases side
  · exact Multiset.coe_eq_coe.2 (perm_side_ofLists left right .left)
  · exact Multiset.coe_eq_coe.2 (perm_side_ofLists left right .right)

theorem bags_add (q : Sequent) (side : Side) (f : Formula) :
    (q.add side f).bags = Function.update q.bags side (f ::ₘ q.bags side) := by
  have hadd : ∀ c : Cedent, ((c.add f).occurrences : Multiset Formula) = f ::ₘ c.occurrences :=
    fun c => Multiset.coe_eq_coe.2 (c.perm_add f)
  funext other
  cases side <;> cases other <;> simp [bags, add, Sequent.side, hadd]

theorem bags_erase (h : f ∈ q.bags side) :
    (q.erase side f).bags = Function.update q.bags side ((q.bags side).erase f) := by
  have hadd := bags_add (q.erase side f) side f
  rw [add_erase h] at hadd
  rw [hadd]
  simp

/-- The side on which nothing is taken away stays as it is. -/
theorem side_erase_of_ne (h : other ≠ side) : (q.erase side f).side other = q.side other := by
  cases side <;> cases other <;> first | rfl | exact absurd rfl h

theorem remove_eq_ok (h : f ∈ q.side side) : q.remove side f = .ok (q.erase side f) := by
  cases side <;> exact congrArg (Except.map _) (if_pos h)

theorem remove_eq_error (h : f ∉ q.side side) : q.remove side f = .error (.removedAbsent f) := by
  cases side <;> exact congrArg (Except.map _) (if_neg h)

theorem count_side (q : Sequent) (side : Side) (f : Formula) :
    (q.side side).count f = (q.bags side).count f :=
  ((q.side side).count_eq f).trans (Multiset.coe_count f _).symm

theorem represents_bags (q : Sequent) (side : Side) : (q.side side).Represents (q.bags side) :=
  Cedent.represents_iff.2 rfl

/-- **What a removal does**, where there is something to remove: it takes one occurrence away. -/
theorem exists_remove_eq_ok (h : f ∈ q.bags side) :
    ∃ q', q.remove side f = .ok q' ∧ (q'.side side).Represents ((q.bags side).erase f) ∧
      (q'.side side).count f + 1 = (q.side side).count f ∧
      (∀ g ≠ f, (q'.side side).count g = (q.side side).count g) ∧
      ∀ other ≠ side, q'.side other = q.side other := by
  have hbags : (q.erase side f).bags side = (q.bags side).erase f := by
    rw [bags_erase h, Function.update_self]
  have hrepresents := represents_bags (q.erase side f) side
  rw [hbags] at hrepresents
  refine ⟨_, remove_eq_ok h, hrepresents, ?_, fun g hg => ?_, fun other => side_erase_of_ne⟩
  · have hpos := Multiset.count_pos.2 h
    rw [count_side, count_side, hbags, Multiset.count_erase_self]
    omega
  · rw [count_side, count_side, hbags, Multiset.count_erase_of_ne hg]

theorem eq_iff_count_bags :
    q = q' ↔ ∀ side f, (q.bags side).count f = (q'.bags side).count f := by
  rw [← bags_inj, funext_iff]
  exact forall_congr' fun side => Multiset.ext

end Sequent

/-! ### Histories -/

/-- An operation on numbered sequents. -/
inductive Edit where
  | new (slot : Nat) (left right : List Formula)
  | copy (source target : Nat)
  | add (slot : Nat) (side : Side) (f : Formula)
  | remove (slot : Nat) (side : Side) (f : Formula)
  deriving DecidableEq, Repr

namespace Edit

/-- Edits the sequents. -/
def perform (slots : Nat → Sequent) : Edit → Except Fault (Nat → Sequent)
  | .new slot left right => .ok (Function.update slots slot (.ofLists left right))
  | .copy source target => .ok (Function.update slots target (slots source))
  | .add slot side f => .ok (Function.update slots slot ((slots slot).add side f))
  | .remove slot side f => ((slots slot).remove side f).map (Function.update slots slot)

/-- Edits the sequents one operation after the other. -/
def performAll (slots : Nat → Sequent) : List Edit → Except Fault (Nat → Sequent)
  | [] => .ok slots
  | edit :: edits =>
    match edit.perform slots with
    | .ok slots => performAll slots edits
    | .error fault => .error fault

/-- What is meant to become of the multisets on the sides; `none` if a formula is to be removed that
is not there. -/
def intended (bags : Nat → Side → Multiset Formula) :
    Edit → Option (Nat → Side → Multiset Formula)
  | .new slot left right => some (Function.update bags slot fun
      | .left => left
      | .right => right)
  | .copy source target => some (Function.update bags target (bags source))
  | .add slot side f =>
    some (Function.update bags slot (Function.update (bags slot) side (f ::ₘ bags slot side)))
  | .remove slot side f =>
    if f ∈ bags slot side then
      some (Function.update bags slot
        (Function.update (bags slot) side ((bags slot side).erase f)))
    else none

/-- What is meant to become of the multisets, one operation after the other. -/
def intendedAll (bags : Nat → Side → Multiset Formula) :
    List Edit → Option (Nat → Side → Multiset Formula)
  | [] => some bags
  | edit :: edits => (edit.intended bags).bind fun bags => intendedAll bags edits

/-- **An edit does what it is meant to do.** -/
theorem toOption_perform (slots : Nat → Sequent) (edit : Edit) :
    (edit.perform slots).toOption.map (Sequent.bags ∘ ·) =
      edit.intended (Sequent.bags ∘ slots) := by
  cases edit with
  | new slot left right =>
    simp only [perform, intended, Except.toOption, Option.map_some, Function.comp_update,
      Sequent.bags_ofLists]
  | copy source target =>
    simp only [perform, intended, Except.toOption, Option.map_some, Function.comp_update,
      Function.comp_apply]
  | add slot side f =>
    simp only [perform, intended, Except.toOption, Option.map_some, Function.comp_update,
      Function.comp_apply, Sequent.bags_add]
  | remove slot side f =>
    by_cases hmem : f ∈ (slots slot).bags side
    · simp only [perform, intended, Sequent.remove_eq_ok hmem, Except.map, Except.toOption,
        Option.map_some, Function.comp_update, Function.comp_apply, Sequent.bags_erase hmem,
        if_pos hmem]
    · simp only [perform, intended, Sequent.remove_eq_error hmem, Except.map, Except.toOption,
        Option.map_none, Function.comp_apply, if_neg hmem]

/-- **A history does what it is meant to do.** -/
theorem toOption_performAll (slots : Nat → Sequent) (edits : List Edit) :
    (performAll slots edits).toOption.map (Sequent.bags ∘ ·) =
      intendedAll (Sequent.bags ∘ slots) edits := by
  induction edits generalizing slots with
  | nil => rfl
  | cons edit edits ih =>
    rw [intendedAll, ← toOption_perform, performAll]
    cases edit.perform slots with
    | error fault => rfl
    | ok next => exact ih next

/-- The sequents at the end of a history.  At its beginning all of them are empty. -/
def sequents (edits : List Edit) : Except Fault (Nat → Sequent) :=
  performAll (fun _ => .empty) edits

/-- The multisets that are meant to stand on their sides. -/
def multisets (edits : List Edit) : Option (Nat → Side → Multiset Formula) :=
  intendedAll (fun _ _ => 0) edits

theorem toOption_sequents (edits : List Edit) :
    (sequents edits).toOption.map (Sequent.bags ∘ ·) = multisets edits := by
  have hempty : Sequent.bags ∘ (fun _ : Nat => Sequent.empty) = fun _ _ => 0 :=
    funext fun _ => Sequent.bags_empty
  rw [sequents, toOption_performAll, hempty, multisets]

theorem multisets_eq_some {edits : List Edit} {slots : Nat → Sequent}
    (h : sequents edits = .ok slots) : multisets edits = some (Sequent.bags ∘ slots) := by
  rw [← toOption_sequents, h]
  rfl

theorem exists_sequents_iff {edits : List Edit} :
    (∃ slots, sequents edits = .ok slots) ↔ ∃ bags, multisets edits = some bags := by
  rw [← toOption_sequents]
  cases sequents edits <;> simp [Except.toOption]

end Edit

/-- **Whatever was done to sequents, they are pairs of multisets.**  A history goes through exactly
if it does on multisets.  Then each side represents its multiset in every one of its tables.  A
removal fails exactly if there is nothing to remove, and otherwise takes one occurrence away and
changes nothing else.  Sequents with different histories are equal exactly if they hold each formula
equally often on each side, and then they are printed alike. -/
theorem edits_act_on_multisets (edits : List Edit) :
    ((∃ slots, Edit.sequents edits = .ok slots) ↔ ∃ bags, Edit.multisets edits = some bags) ∧
    ∀ slots bags, Edit.sequents edits = .ok slots → Edit.multisets edits = some bags →
      (∀ slot side, ((slots slot).side side).Represents (bags slot side)) ∧
      (∀ slot side f,
        (f ∉ bags slot side → (slots slot).remove side f = .error (.removedAbsent f)) ∧
        (f ∈ bags slot side → ∃ q, (slots slot).remove side f = .ok q ∧
          (q.side side).Represents ((bags slot side).erase f) ∧
          (q.side side).count f + 1 = ((slots slot).side side).count f ∧
          (∀ g ≠ f, (q.side side).count g = ((slots slot).side side).count g) ∧
          ∀ other ≠ side, q.side other = (slots slot).side other)) ∧
      ∀ edits' slots' bags', Edit.sequents edits' = .ok slots' →
        Edit.multisets edits' = some bags' → ∀ slot slot',
          (slots slot = slots' slot' ↔
            ∀ side f, (bags slot side).count f = (bags' slot' side).count f) ∧
          ((∀ side f, (bags slot side).count f = (bags' slot' side).count f) →
            ∀ s : Store, s.sequentText (slots slot) = s.sequentText (slots' slot')) := by
  refine ⟨Edit.exists_sequents_iff, fun slots bags hslots hbags => ?_⟩
  obtain rfl := Option.some.inj ((Edit.multisets_eq_some hslots).symm.trans hbags)
  refine ⟨fun slot => (slots slot).represents_bags, fun slot side f => ?_, ?_⟩
  · exact ⟨Sequent.remove_eq_error, Sequent.exists_remove_eq_ok⟩
  · intro edits' slots' bags' hslots' hbags' slot slot'
    obtain rfl := Option.some.inj ((Edit.multisets_eq_some hslots').symm.trans hbags')
    refine ⟨Sequent.eq_iff_count_bags, fun hcount s => ?_⟩
    rw [Sequent.eq_iff_count_bags.2 hcount]

/-- A disjunction is taken from the left with its last occurrence, and comes back. -/
theorem edits_act_on_multisets_when_formula_returns :
    let a : Formula := ⟨2, .atomic⟩
    let f : Formula := ⟨4, .compound (.bin .or)⟩
    let gone : List Edit := [.new 0 [f, a] [a, f], .copy 0 1, .remove 0 .left f]
    let back : List Edit := gone ++ [.add 0 .left f]
    (∃ slots, Edit.sequents gone = .ok slots ∧ slots 0 ≠ slots 1 ∧
        (slots 0).left.get? f.kind = none ∧ (slots 0).right.get? f.kind = some f ∧
        (slots 0).remove .left f = .error (.removedAbsent f)) ∧
      ∃ slots, Edit.sequents back = .ok slots ∧ slots 0 = slots 1 ∧
        (slots 0).left.get? f.kind = some f := by
  intro a f gone back
  have hgone : ∃ slots bags, Edit.sequents gone = .ok slots ∧ Edit.multisets gone = some bags ∧
      bags 0 .left = {a} ∧ bags 0 .right = {a, f} ∧ bags 1 .left = {f, a} :=
    ⟨_, _, rfl, rfl, by decide, by decide, by decide⟩
  have hback : ∃ slots bags, Edit.sequents back = .ok slots ∧ Edit.multisets back = some bags ∧
      bags 0 .left = {f, a} ∧ bags 1 .left = {f, a} ∧ bags 0 .right = bags 1 .right :=
    ⟨_, _, rfl, rfl, by decide, by decide, by decide⟩
  constructor
  · obtain ⟨slots, bags, hslots, hbags, hleft, hright, hcopy⟩ := hgone
    obtain ⟨hrepresents, hremove, hequal⟩ := (edits_act_on_multisets gone).2 slots bags hslots hbags
    refine ⟨slots, hslots, fun h => ?_, ?_, ?_, ?_⟩
    · have hcount := (hequal gone slots bags hslots hbags 0 1).1.1 h .left f
      rw [hleft, hcopy] at hcount
      exact absurd hcount (by decide)
    · refine Option.eq_none_iff_forall_ne_some.2 fun g hg => ?_
      obtain ⟨hmem, hkind, -⟩ := ((hrepresents 0 .left).get f.kind g).1 hg
      rw [hleft, Multiset.mem_singleton] at hmem
      subst hmem
      cases hkind
    · refine ((hrepresents 0 .right).get f.kind f).2 ⟨?_, rfl, ?_⟩
      · rw [hright]
        decide
      · rw [hright]
        decide
    · exact (hremove 0 .left f).1 (by rw [hleft]; decide)
  · obtain ⟨slots, bags, hslots, hbags, hleft, hcopy, hright⟩ := hback
    obtain ⟨hrepresents, -, hequal⟩ := (edits_act_on_multisets back).2 slots bags hslots hbags
    refine ⟨slots, hslots, ?_, ?_⟩
    · refine (hequal back slots bags hslots hbags 0 1).1.2 fun side g => ?_
      cases side
      · rw [hleft, hcopy]
      · rw [hright]
    · refine ((hrepresents 0 .left).get f.kind f).2 ⟨?_, rfl, ?_⟩
      · rw [hleft]
        decide
      · rw [hleft]
        decide

end SequentCalculus
