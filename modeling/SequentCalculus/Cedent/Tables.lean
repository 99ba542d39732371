import SequentCalculus.Formula
import SequentCalculus.SumBy

/-!
# Tables of occurrences

One side of a sequent is a multiset of formulas.  It is kept in three forms at once, each in the
order of the formulas: how often each formula occurs, which formulas of each kind there are, and how
many occurrences there are altogether.  Adding and erasing a formula bring every form up to date on
its own; the lists by kind are only touched with the first and the last occurrence of a formula.

`Tables.Consistent` says how the three forms hang together, and `Tables.Consistent.add` and
`Tables.Consistent.erase` that they do so after every change.  What the tables stand for is the list
of all occurrences: adding a formula is a permutation of consing it (`Counts.perm_increment`), and
erasing it undoes this (`Counts.perm_decrement`).
-/

namespace SequentCalculus

/-! ### Ordered lists -/

/-- Puts a formula into an ordered list, before the first formula that is not smaller. -/
def insertOrdered (f : Formula) : List Formula → List Formula
  | [] => [f]
  | g :: gs => if f ≤ g then f :: g :: gs else g :: insertOrdered f gs

theorem perm_insertOrdered (f : Formula) (gs : List Formula) :
    (insertOrdered f gs).Perm (f :: gs) := by
  induction gs with
  | nil => exact List.Perm.refl _
  | cons g gs ih =>
    rw [insertOrdered]
    split
    · exact List.Perm.refl _
    · exact (ih.cons g).trans (List.Perm.swap f g gs)

theorem nodup_of_pairwise_lt {fs : List Formula} (h : fs.Pairwise (· < ·)) : fs.Nodup :=
  h.imp Formula.ne_of_lt

theorem pairwise_insertOrdered {f : Formula} {gs : List Formula} (h : gs.Pairwise (· < ·))
    (hf : f ∉ gs) : (insertOrdered f gs).Pairwise (· < ·) := by
  induction gs with
  | nil => exact List.pairwise_singleton _ f
  | cons g gs ih =>
    obtain ⟨hg, hgs⟩ := List.pairwise_cons.1 h
    rw [List.mem_cons, not_or] at hf
    rw [insertOrdered]
    split
    · -- `f` comes first
      rename_i hle
      have hfg : f < g := Formula.lt_of_le_of_ne hle hf.1
      refine List.pairwise_cons.2 ⟨fun x hx => ?_, h⟩
      rcases List.mem_cons.1 hx with rfl | hx
      · exact hfg
      · exact Formula.lt_trans hfg (hg x hx)
    · -- `f` comes somewhere after `g`
      rename_i hle
      have hgf : g < f :=
        Formula.lt_of_le_of_ne ((Formula.le_total f g).resolve_left hle) (Ne.symm hf.1)
      refine List.pairwise_cons.2 ⟨fun x hx => ?_, ih hgs hf.2⟩
      rcases List.mem_cons.1 ((perm_insertOrdered f gs).mem_iff.1 hx) with rfl | hx
      · exact hgf
      · exact hg x hx

/-! ### Counts -/

/-- Formulas with the number of their occurrences. -/
abbrev Counts : Type :=
  List (Formula × Nat)

namespace Counts

/-- The formulas that are counted. -/
def formulas (counts : Counts) : List Formula :=
  counts.map (·.1)

/-- Every occurrence, repeated formulas next to each other. -/
def occurrences (counts : Counts) : List Formula :=
  counts.flatMap fun entry => List.replicate entry.2 entry.1

/-- The number of occurrences of `f`. -/
def countOf (counts : Counts) (f : Formula) : Nat :=
  (counts.lookup f).getD 0

/-- Counts one more occurrence of `f`. -/
def increment (f : Formula) : Counts → Counts
  | [] => [(f, 1)]
  | (g, n) :: rest =>
    if f = g then (g, n + 1) :: rest
    else if f ≤ g then (f, 1) :: (g, n) :: rest
    else (g, n) :: increment f rest

/-- Counts one occurrence less of `f`.  A formula is dropped with its last occurrence. -/
def decrement (f : Formula) : Counts → Counts
  | [] => []
  | (g, n) :: rest =>
    if f = g then if n ≤ 1 then rest else (g, n - 1) :: rest
    else (g, n) :: decrement f rest

variable {counts : Counts} {f g : Formula}

@[simp] theorem formulas_cons (entry : Formula × Nat) (counts : Counts) :
    formulas (entry :: counts) = entry.1 :: formulas counts :=
  rfl

@[simp] theorem occurrences_cons (entry : Formula × Nat) (counts : Counts) :
    occurrences (entry :: counts) = List.replicate entry.2 entry.1 ++ occurrences counts :=
  rfl

theorem countOf_cons (f g : Formula) (n : Nat) (counts : Counts) :
    countOf ((g, n) :: counts) f = if f = g then n else counts.countOf f := by
  unfold countOf
  rw [List.lookup_cons]
  by_cases hfg : f = g
  · simp [hfg]
  · rw [beq_false_of_ne hfg, if_neg hfg]

theorem mem_formulas_of_mem_occurrences (h : f ∈ counts.occurrences) : f ∈ counts.formulas := by
  obtain ⟨entry, hentry, hf⟩ := List.mem_flatMap.1 h
  rw [(List.mem_replicate.1 hf).2]
  exact List.mem_map_of_mem hentry

theorem mem_occurrences_iff (hpos : ∀ entry ∈ counts, 0 < entry.2) :
    f ∈ counts.occurrences ↔ f ∈ counts.formulas := by
  refine ⟨mem_formulas_of_mem_occurrences, fun h => ?_⟩
  obtain ⟨entry, hentry, rfl⟩ := List.mem_map.1 h
  refine List.mem_flatMap.2 ⟨entry, hentry, List.mem_replicate.2 ⟨?_, rfl⟩⟩
  exact Nat.ne_of_gt (hpos entry hentry)

theorem length_occurrences (counts : Counts) :
    counts.occurrences.length = sumBy (·.2) counts := by
  induction counts with
  | nil => rfl
  | cons entry counts ih => simp [ih]

/-- Looking a formula up gives the number of its occurrences. -/
theorem count_occurrences (h : counts.formulas.Pairwise (· < ·)) (f : Formula) :
    counts.occurrences.count f = counts.countOf f := by
  induction counts with
  | nil => rfl
  | cons entry counts ih =>
    obtain ⟨g, n⟩ := entry
    obtain ⟨hg, hcounts⟩ := List.pairwise_cons.1 h
    rw [occurrences_cons, List.count_append, List.count_replicate, ih hcounts, countOf_cons]
    by_cases hfg : f = g
    · -- no other entry is one of `f`
      subst hfg
      have habsent : countOf counts f = 0 := by
        rw [← ih hcounts, List.count_eq_zero]
        intro hmem
        exact Formula.ne_of_lt (hg f (mem_formulas_of_mem_occurrences hmem)) rfl
      simp [habsent]
    · simp [hfg, Ne.symm hfg]

/-! ### One occurrence more -/

theorem perm_increment (f : Formula) (counts : Counts) :
    (increment f counts).occurrences.Perm (f :: counts.occurrences) := by
  induction counts with
  | nil => exact List.Perm.refl _
  | cons entry counts ih =>
    obtain ⟨g, n⟩ := entry
    rw [increment]
    split
    · rename_i hfg
      rw [hfg]
      exact List.Perm.refl _
    · split
      · exact List.Perm.refl _
      · rw [occurrences_cons, occurrences_cons]
        exact (ih.append_left _).trans List.perm_middle

theorem mem_formulas_increment :
    g ∈ (increment f counts).formulas ↔ g = f ∨ g ∈ counts.formulas := by
  induction counts with
  | nil => simp [increment, formulas]
  | cons entry counts ih =>
    obtain ⟨k, n⟩ := entry
    rw [increment]
    split
    · rename_i hfk
      simp [hfk]
    · split
      · simp
      · rw [formulas_cons, formulas_cons, List.mem_cons, List.mem_cons, ih, or_left_comm]

theorem ordered_increment (f : Formula) (h : counts.formulas.Pairwise (· < ·)) :
    (increment f counts).formulas.Pairwise (· < ·) := by
  induction counts with
  | nil => exact List.pairwise_singleton _ f
  | cons entry counts ih =>
    obtain ⟨g, n⟩ := entry
    obtain ⟨hg, hcounts⟩ := List.pairwise_cons.1 h
    rw [increment]
    split
    · exact h
    · rename_i hne
      split
      · rename_i hle
        have hfg : f < g := Formula.lt_of_le_of_ne hle hne
        refine List.pairwise_cons.2 ⟨fun x hx => ?_, h⟩
        rcases List.mem_cons.1 hx with rfl | hx
        · exact hfg
        · exact Formula.lt_trans hfg (hg x hx)
      · rename_i hle
        have hgf : g < f :=
          Formula.lt_of_le_of_ne ((Formula.le_total f g).resolve_left hle) (Ne.symm hne)
        refine List.pairwise_cons.2 ⟨fun x hx => ?_, ih hcounts⟩
        rcases mem_formulas_increment.1 hx with rfl | hx
        · exact hgf
        · exact hg x hx

theorem positive_increment (f : Formula) (h : ∀ entry ∈ counts, 0 < entry.2) :
    ∀ entry ∈ increment f counts, 0 < entry.2 := by
  induction counts with
  | nil => simp [increment]
  | cons entry counts ih =>
    obtain ⟨g, n⟩ := entry
    obtain ⟨hn, hcounts⟩ := List.forall_mem_cons.1 h
    rw [increment]
    split
    · exact List.forall_mem_cons.2 ⟨Nat.succ_pos n, hcounts⟩
    · split
      · exact List.forall_mem_cons.2 ⟨Nat.one_pos, h⟩
      · exact List.forall_mem_cons.2 ⟨hn, ih hcounts⟩

/-! ### One occurrence less -/

theorem perm_decrement (hpos : ∀ entry ∈ counts, 0 < entry.2) (h : f ∈ counts.formulas) :
    counts.occurrences.Perm (f :: (decrement f counts).occurrences) := by
  induction counts with
  | nil => cases h
  | cons entry counts ih =>
    obtain ⟨g, n⟩ := entry
    obtain ⟨hn, hcounts⟩ := List.forall_mem_cons.1 hpos
    rw [decrement]
    split
    · rename_i hfg
      subst hfg
      split
      · -- the last occurrence
        rename_i hle
        have hone : n = 1 := Nat.le_antisymm hle hn
        subst hone
        exact List.Perm.refl _
      · rename_i hle
        obtain ⟨m, rfl⟩ : ∃ m, n = m + 1 := ⟨n - 1, by omega⟩
        exact List.Perm.refl _
    · rename_i hne
      have hrest := ih hcounts ((List.mem_cons.1 h).resolve_left hne)
      rw [occurrences_cons, occurrences_cons]
      exact (hrest.append_left _).trans List.perm_middle

theorem sublist_decrement (f : Formula) (counts : Counts) :
    (decrement f counts).formulas.Sublist counts.formulas := by
  induction counts with
  | nil => exact List.Sublist.refl _
  | cons entry counts ih =>
    obtain ⟨g, n⟩ := entry
    rw [decrement]
    split
    · split
      · exact List.sublist_cons_self _ _
      · exact List.Sublist.refl _
    · exact ih.cons_cons _

theorem positive_decrement (f : Formula) (h : ∀ entry ∈ counts, 0 < entry.2) :
    ∀ entry ∈ decrement f counts, 0 < entry.2 := by
  induction counts with
  | nil => simp [decrement]
  | cons entry counts ih =>
    obtain ⟨g, n⟩ := entry
    obtain ⟨hn, hcounts⟩ := List.forall_mem_cons.1 h
    rw [decrement]
    split
    · split
      · exact hcounts
      · exact List.forall_mem_cons.2 ⟨by show 0 < n - 1; omega, hcounts⟩
    · exact List.forall_mem_cons.2 ⟨hn, ih hcounts⟩

theorem mem_formulas_decrement (hne : g ≠ f) :
    g ∈ (decrement f counts).formulas ↔ g ∈ counts.formulas := by
  induction counts with
  | nil => rfl
  | cons entry counts ih =>
    obtain ⟨k, n⟩ := entry
    rw [decrement]
    split
    · rename_i hfk
      subst hfk
      split <;> simp [hne]
    · rw [formulas_cons, formulas_cons, List.mem_cons, List.mem_cons, ih]

end Counts

/-! ### Tables -/

/-- What is kept of one side of a sequent. -/
structure Tables where
  /-- The formulas, increasing, with the number of their occurrences. -/
  counts : Counts
  /-- The formulas of each kind, increasing. -/
  byKind : Vector (List Formula) Kind.count
  /-- The number of all occurrences. -/
  size : Nat
  deriving DecidableEq, Repr

namespace Tables

/-- The tables of a side without formulas. -/
def empty : Tables :=
  ⟨[], .replicate Kind.count [], 0⟩

/-- The formulas of a kind. -/
def ofKind (t : Tables) (kind : Kind) : List Formula :=
  getElem t.byKind kind.rank kind.rank_lt

/-- The lists by kind, one of them changed. -/
def changeKind (t : Tables) (kind : Kind) (change : List Formula → List Formula) :
    Vector (List Formula) Kind.count :=
  t.byKind.set kind.rank (change (t.ofKind kind)) kind.rank_lt

/-- Adds an occurrence of `f`.  With its first one, `f` is listed under its kind. -/
def add (t : Tables) (f : Formula) : Tables :=
  let counts := t.counts.increment f
  { counts := counts
    byKind := if counts.countOf f = 1 then t.changeKind f.kind (insertOrdered f) else t.byKind
    size := t.size + 1 }

/-- Takes an occurrence of `f` away, if there is one.  With its last one, `f` is no longer listed
under its kind. -/
def erase (t : Tables) (f : Formula) : Tables :=
  if f ∈ t.counts.formulas then
    let counts := t.counts.decrement f
    { counts := counts
      byKind := if counts.countOf f = 0 then t.changeKind f.kind (·.erase f) else t.byKind
      size := t.size - 1 }
  else t

/-- **The forms hang together**: only formulas that occur are counted, in order; as many occurrences
are recorded as were counted; and under each kind, in order, stand the formulas of that kind. -/
structure Consistent (t : Tables) : Prop where
  ordered : t.counts.formulas.Pairwise (· < ·)
  positive : ∀ entry ∈ t.counts, 0 < entry.2
  size_eq : t.size = sumBy (·.2) t.counts
  ordered_ofKind : ∀ kind, (t.ofKind kind).Pairwise (· < ·)
  mem_ofKind : ∀ kind f, f ∈ t.ofKind kind ↔ f ∈ t.counts.formulas ∧ f.kind = kind

variable {t : Tables} {f : Formula}

theorem consistent_empty : empty.Consistent where
  ordered := List.Pairwise.nil
  positive := List.forall_mem_nil _
  size_eq := rfl
  ordered_ofKind kind := by simp [empty, ofKind]
  mem_ofKind kind f := by simp [empty, ofKind, Counts.formulas]

/-- A change under one kind is not seen under the others. -/
theorem getElem_changeKind (t : Tables) (p : Prop) [Decidable p] (changed kind : Kind)
    (change : List Formula → List Formula) :
    getElem (if p then t.changeKind changed change else t.byKind) kind.rank kind.rank_lt =
      if p ∧ changed = kind then change (t.ofKind kind) else t.ofKind kind := by
  by_cases hp : p
  · by_cases hkind : changed = kind
    · subst hkind
      simp [hp, changeKind]
    · have hrank : changed.rank ≠ kind.rank := fun h => hkind (Kind.rank_inj h)
      simp [hp, hkind, hrank, changeKind, ofKind]
  · simp [hp, ofKind]

namespace Consistent

theorem mem_occurrences_iff (h : t.Consistent) :
    f ∈ t.counts.occurrences ↔ f ∈ t.counts.formulas :=
  Counts.mem_occurrences_iff h.positive

/-- The count of a formula is 1 after its first occurrence was added. -/
theorem countOf_increment_eq_one_iff (h : t.Consistent) :
    (t.counts.increment f).countOf f = 1 ↔ f ∉ t.counts.formulas := by
  rw [← Counts.count_occurrences (Counts.ordered_increment f h.ordered),
    (Counts.perm_increment f t.counts).count_eq, List.count_cons_self, Nat.add_eq_right,
    List.count_eq_zero, h.mem_occurrences_iff]

/-- The count of a formula is 0 after its last occurrence was taken away. -/
theorem countOf_decrement_eq_zero_iff (h : t.Consistent) :
    (t.counts.decrement f).countOf f = 0 ↔ f ∉ (t.counts.decrement f).formulas := by
  rw [← Counts.count_occurrences (h.ordered.sublist (Counts.sublist_decrement f t.counts)),
    List.count_eq_zero, Counts.mem_occurrences_iff (Counts.positive_decrement f h.positive)]

/-- **Adding an occurrence keeps the forms together.** -/
theorem add (h : t.Consistent) (f : Formula) : (t.add f).Consistent := by
  have hofKind (kind : Kind) : (t.add f).ofKind kind =
      if f ∉ t.counts.formulas ∧ f.kind = kind then insertOrdered f (t.ofKind kind)
      else t.ofKind kind := by
    refine (t.getElem_changeKind _ f.kind kind _).trans ?_
    simp only [h.countOf_increment_eq_one_iff]
  refine ⟨Counts.ordered_increment f h.ordered, Counts.positive_increment f h.positive, ?_,
    fun kind => ?_, fun kind g => ?_⟩
  · show t.size + 1 = sumBy (·.2) (t.counts.increment f)
    rw [← Counts.length_occurrences, (Counts.perm_increment f t.counts).length_eq,
      List.length_cons, Counts.length_occurrences, h.size_eq]
  · rw [hofKind]
    split
    · rename_i hnew
      exact pairwise_insertOrdered (h.ordered_ofKind kind) fun hf =>
        hnew.1 ((h.mem_ofKind kind f).1 hf).1
    · exact h.ordered_ofKind kind
  · show g ∈ (t.add f).ofKind kind ↔ g ∈ (t.counts.increment f).formulas ∧ g.kind = kind
    rw [hofKind, Counts.mem_formulas_increment]
    split
    · rename_i hnew
      rw [(perm_insertOrdered f _).mem_iff, List.mem_cons, h.mem_ofKind]
      constructor
      · rintro (rfl | ⟨hg, hkind⟩)
        · exact ⟨.inl rfl, hnew.2⟩
        · exact ⟨.inr hg, hkind⟩
      · rintro ⟨rfl | hg, hkind⟩
        · exact .inl rfl
        · exact .inr ⟨hg, hkind⟩
    · -- `f` is listed under its kind already
      rename_i hold
      rw [h.mem_ofKind]
      refine and_congr_left fun hkind => ⟨.inr, ?_⟩
      rintro (rfl | hg)
      · exact Decidable.not_not.1 fun hnew => hold ⟨hnew, hkind⟩
      · exact hg

/-- **Taking an occurrence away keeps the forms together.** -/
theorem erase (h : t.Consistent) (f : Formula) : (t.erase f).Consistent := by
  by_cases hf : f ∈ t.counts.formulas
  · have herase : t.erase f =
        ⟨t.counts.decrement f,
          if (t.counts.decrement f).countOf f = 0 then t.changeKind f.kind (·.erase f)
          else t.byKind, t.size - 1⟩ := if_pos hf
    have hofKind (kind : Kind) : (t.erase f).ofKind kind =
        if f ∉ (t.counts.decrement f).formulas ∧ f.kind = kind then (t.ofKind kind).erase f
        else t.ofKind kind := by
      rw [herase]
      refine (t.getElem_changeKind _ f.kind kind _).trans ?_
      simp only [h.countOf_decrement_eq_zero_iff]
    rw [herase] at hofKind ⊢
    refine ⟨h.ordered.sublist (Counts.sublist_decrement f t.counts),
      Counts.positive_decrement f h.positive, ?_, fun kind => ?_, fun kind g => ?_⟩
    · show t.size - 1 = sumBy (·.2) (t.counts.decrement f)
      have hlength := (Counts.perm_decrement h.positive hf).length_eq
      rw [List.length_cons, Counts.length_occurrences, Counts.length_occurrences,
        ← h.size_eq] at hlength
      omega
    · rw [hofKind]
      split
      · exact (h.ordered_ofKind kind).sublist List.erase_sublist
      · exact h.ordered_ofKind kind
    · rw [hofKind]
      show _ ↔ g ∈ (t.counts.decrement f).formulas ∧ g.kind = kind
      by_cases hgf : g = f
      · -- `f` is listed under its kind as long as it occurs
        subst hgf
        split
        · rename_i hlast
          rw [(nodup_of_pairwise_lt (h.ordered_ofKind kind)).mem_erase_iff]
          simp [hlast.1]
        · rename_i hmore
          rw [h.mem_ofKind]
          refine and_congr_left fun hkind => iff_of_true hf ?_
          exact Decidable.not_not.1 fun hlast => hmore ⟨hlast, hkind⟩
      · rw [Counts.mem_formulas_decrement hgf, ← h.mem_ofKind]
        split
        · exact List.mem_erase_of_ne hgf
        · rfl
  · rw [show t.erase f = t from if_neg hf]
    exact h

end Consistent

end Tables

end SequentCalculus
