import SequentCalculus.Proofs.Calculus
import SequentCalculus.ProofState
import Mathlib.Data.List.Nodup

/-!
# The invariant of a proof state

`Sound` collects what holds of a proof state at any time:

* every open goal is a sequent of the store;
* the rules remembered with a goal are the applicable rules of its sequent;
* the goals are in the order of their numbers, and all numbers are below the next one.

So a number belongs to one goal at most, and what is remembered cannot be told from what is worked
out afresh (`Sound.fst_applicableRules`, `Sound.fst_isExhausted_iff`).

Under the invariant a request to refine does one of three things: nothing
(`Sound.refine_eq_nothingToDo`), closing an axiom (`Sound.refine_eq_closed`), or putting the
premises of a rule in the place of its conclusion (`Sound.refine_eq_expanded`).  The only fault left
is that goal numbers run out (`openGoals_eq_error`).
-/

namespace SequentCalculus.ProofState

/-- The sequents of the open goals, in the order of their numbers. -/
def sequents (p : ProofState) : List Sequent :=
  p.goals.map (·.sequent)

/-- **The invariant of a proof state.** -/
structure Sound (p : ProofState) : Prop where
  wellFormed : p.store.WellFormed
  owns : ∀ goal ∈ p.goals, p.store.OwnsSequent goal.sequent
  applicable : ∀ goal ∈ p.goals, goal.applicable = goal.sequent.applicableRules
  ordered : p.goals.Pairwise fun g h => g.id.index < h.id.index
  below : ∀ goal ∈ p.goals, goal.id.index < p.next.index

variable {p p' : ProofState} {goal : Goal} {id : GoalId} {rule : Rule}

theorem sound_loadSequent {q : Sequent} (hstore : p.store.WellFormed)
    (hq : p.store.OwnsSequent q) : (p.loadSequent q).Sound where
  wellFormed := hstore
  owns := by simpa [loadSequent] using hq
  applicable := by simp [loadSequent, Goal.applicable]
  ordered := List.pairwise_singleton _ _
  below := by simp [loadSequent, GoalId.zero]

theorem sound_ofStore {s : Store} (hs : s.WellFormed) : (ofStore s).Sound :=
  sound_loadSequent hs fun side _ hf => by cases side <;> cases hf

theorem Sound.reset (hp : p.Sound) : p.reset.Sound where
  wellFormed := hp.wellFormed
  owns := List.forall_mem_nil _
  applicable := List.forall_mem_nil _
  ordered := .nil
  below := List.forall_mem_nil _

theorem load_eq_ok {text : String} (h : p.load text = .ok p') :
    ∃ e : SequentExpr, SequentExpr.read text = .ok e ∧
      p' = loadSequent { p with store := (e.build p.store).2 } (e.build p.store).1 := by
  unfold load Store.readSequent at h
  cases hread : SequentExpr.read text with
  | error error =>
    rw [hread] at h
    cases h
  | ok e =>
    rw [hread] at h
    exact ⟨e, rfl, (Except.ok.inj h).symm⟩

theorem load_eq_error_iff {text : String} {error : InputError} :
    p.load text = .error error ↔ SequentExpr.read text = .error error := by
  unfold load Store.readSequent
  cases SequentExpr.read text <;> simp [Except.map]

/-- A sequent that was read can be loaded. -/
theorem sound_load (hs : p.store.Reachable) (e : SequentExpr) :
    (e.build p.store).2.Reachable ∧
      (loadSequent { p with store := (e.build p.store).2 } (e.build p.store).1).Sound := by
  obtain ⟨hgrows, howns⟩ := Store.grows_build_sequent hs.wellFormed e
  have hbuilt := hs.grow hgrows
  exact ⟨hbuilt, sound_loadSequent hbuilt.wellFormed howns⟩

/-- Goals stay sound while the store grows. -/
theorem Sound.grow (hp : p.Sound) {t : Store} (hgrows : p.store.Grows t) :
    Sound { p with store := t } := by
  obtain ⟨hext, hwf⟩ := hgrows.extend_wellFormed hp.wellFormed
  exact ⟨hwf, fun goal hgoal side f hf => (hp.owns goal hgoal side f hf).extend hext,
    hp.applicable, hp.ordered, hp.below⟩

/-! ### Numbers -/

theorem Sound.eq_of_id_eq (hp : p.Sound) {other : Goal} (hgoal : goal ∈ p.goals)
    (hother : other ∈ p.goals) (h : goal.id = other.id) : goal = other := by
  have hnodup : (p.goals.map (·.id)).Nodup := by
    refine List.pairwise_map.2 (hp.ordered.imp fun hlt heq => ?_)
    exact absurd (congrArg GoalId.index heq) (Nat.ne_of_lt hlt)
  exact List.inj_on_of_nodup_map hnodup hgoal hother h

theorem Sound.find?_eq_some_iff (hp : p.Sound) :
    p.find? id = some goal ↔ goal ∈ p.goals ∧ goal.id = id := by
  constructor
  · intro h
    exact ⟨List.mem_of_find?_eq_some h, by simpa using List.find?_some h⟩
  · rintro ⟨hgoal, rfl⟩
    cases hfind : p.find? goal.id with
    | none => exact absurd (List.find?_eq_none.1 hfind goal hgoal) (by simp)
    | some other =>
      have hid : other.id = goal.id := by simpa using List.find?_some hfind
      rw [hp.eq_of_id_eq (List.mem_of_find?_eq_some hfind) hgoal hid]

theorem find?_eq_none_iff : p.find? id = none ↔ ∀ goal ∈ p.goals, goal.id ≠ id := by
  simp [find?]

/-- What is left when a goal is closed. -/
theorem Sound.goals_close (hp : p.Sound) {before after : List Goal}
    (hgoals : p.goals = before ++ goal :: after) :
    (p.close goal.id).goals = before ++ after := by
  -- the numbers before and after the goal differ from its own
  have hordered := hp.ordered
  rw [hgoals, List.pairwise_append, List.pairwise_cons] at hordered
  obtain ⟨-, ⟨hafter, -⟩, hbefore⟩ := hordered
  have hkeep : ∀ goals : List Goal, (∀ g ∈ goals, g.id ≠ goal.id) →
      goals.filter (·.id != goal.id) = goals := by
    intro goals hne
    rw [List.filter_eq_self]
    intro g hg
    simpa using hne g hg
  show p.goals.filter (·.id != goal.id) = before ++ after
  rw [hgoals, List.filter_append, List.filter_cons]
  simp only [bne_self_eq_false, Bool.false_eq_true, if_false]
  rw [hkeep before, hkeep after]
  · intro g hg heq
    have hlt := hafter g hg
    rw [heq] at hlt
    exact absurd hlt (Nat.lt_irrefl _)
  · intro g hg heq
    have hlt := hbefore g hg goal (by simp)
    rw [heq] at hlt
    exact absurd hlt (Nat.lt_irrefl _)

theorem Sound.close (hp : p.Sound) (id : GoalId) : (p.close id).Sound where
  wellFormed := hp.wellFormed
  owns goal hgoal := hp.owns goal (List.mem_filter.1 hgoal).1
  applicable goal hgoal := hp.applicable goal (List.mem_filter.1 hgoal).1
  ordered := hp.ordered.filter _
  below goal hgoal := hp.below goal (List.mem_filter.1 hgoal).1

/-! ### Remembered rules -/

@[simp] theorem sequents_remember (p : ProofState) (id : GoalId) :
    (p.remember id).sequents = p.sequents := by
  rw [sequents, sequents, remember, List.map_map]
  refine List.map_congr_left fun goal _ => ?_
  rw [Function.comp]
  split <;> rfl

theorem mem_remember {g : Goal} (h : g ∈ (p.remember id).goals) :
    ∃ goal ∈ p.goals, g.id = goal.id ∧ g.sequent = goal.sequent ∧
      g.applicable = goal.applicable := by
  obtain ⟨goal, hgoal, rfl⟩ := List.mem_map.1 h
  refine ⟨goal, hgoal, ?_⟩
  split <;> exact ⟨rfl, rfl, rfl⟩

theorem Sound.remember (hp : p.Sound) (id : GoalId) : (p.remember id).Sound where
  wellFormed := hp.wellFormed
  owns g hg := by
    obtain ⟨goal, hgoal, -, hsequent, -⟩ := mem_remember hg
    rw [hsequent]
    exact hp.owns goal hgoal
  applicable g hg := by
    obtain ⟨goal, hgoal, -, hsequent, happlicable⟩ := mem_remember hg
    rw [happlicable, hsequent]
    exact hp.applicable goal hgoal
  ordered := by
    have hid : ∀ goal : Goal, (if goal.id = id then goal.remember else goal).id = goal.id := by
      intro goal
      split <;> rfl
    rw [ProofState.remember, List.pairwise_map]
    simpa only [hid] using hp.ordered
  below g hg := by
    obtain ⟨goal, hgoal, hid, -, -⟩ := mem_remember hg
    rw [hid]
    exact hp.below goal hgoal

/-- A goal that is closed takes what is remembered of it along. -/
theorem close_remember (p : ProofState) (id : GoalId) : (p.remember id).close id = p.close id := by
  have hgoals : ∀ goals : List Goal,
      (goals.map fun goal => if goal.id = id then goal.remember else goal).filter (·.id != id) =
        goals.filter (·.id != id) := by
    intro goals
    induction goals with
    | nil => rfl
    | cons goal goals ih =>
      by_cases hid : goal.id = id
      · have hremember : goal.remember.id = id := hid
        simp [hid, hremember, ih]
      · simp [hid, ih]
  show ({ p with goals := _ } : ProofState) = { p with goals := _ }
  rw [← hgoals p.goals]
  rfl

/-- Looking at rules changes what is remembered and nothing else. -/
theorem snd_applicableRules (p : ProofState) (id : GoalId) :
    (p.applicableRules id).2 = p.remember id := by
  unfold applicableRules
  split
  · rename_i hfind
    -- there is no goal whose rules could be remembered
    have hgoals : p.goals.map (fun goal => if goal.id = id then goal.remember else goal) =
        p.goals := by
      refine (List.map_congr_left fun goal hgoal => ?_).trans (List.map_id _)
      exact if_neg (find?_eq_none_iff.1 hfind goal hgoal)
    rw [ProofState.remember, hgoals]
  · rfl

theorem Sound.fst_applicableRules (hp : p.Sound) (hgoal : goal ∈ p.goals) :
    (p.applicableRules goal.id).1 = some goal.sequent.applicableRules := by
  unfold applicableRules
  rw [hp.find?_eq_some_iff.2 ⟨hgoal, rfl⟩]
  exact congrArg some (hp.applicable goal hgoal)

theorem fst_applicableRules_eq_none (h : ∀ goal ∈ p.goals, goal.id ≠ id) :
    (p.applicableRules id).1 = none := by
  unfold applicableRules
  rw [find?_eq_none_iff.2 h]

/-- The rules listed for an open goal are those of its sequent. -/
theorem Sound.fst_applicableRules_eq_some_iff (hp : p.Sound) {rules : List Rule} :
    (p.applicableRules id).1 = some rules ↔
      ∃ goal ∈ p.goals, goal.id = id ∧ goal.sequent.applicableRules = rules := by
  by_cases hopen : ∃ goal ∈ p.goals, goal.id = id
  · obtain ⟨goal, hgoal, rfl⟩ := hopen
    rw [hp.fst_applicableRules hgoal, Option.some.injEq]
    constructor
    · intro h
      exact ⟨goal, hgoal, rfl, h⟩
    · rintro ⟨other, hother, hid, rfl⟩
      rw [hp.eq_of_id_eq hother hgoal hid]
  · rw [fst_applicableRules_eq_none fun goal hgoal hid => hopen ⟨goal, hgoal, hid⟩]
    constructor
    · intro h
      cases h
    · rintro ⟨goal, hgoal, hid, -⟩
      exact absurd ⟨goal, hgoal, hid⟩ hopen

theorem exists_remember_iff {P : GoalId → Sequent → Prop} :
    (∃ goal ∈ (p.remember id).goals, P goal.id goal.sequent) ↔
      ∃ goal ∈ p.goals, P goal.id goal.sequent := by
  simp only [ProofState.remember, List.mem_map, exists_exists_and_eq_and]
  refine exists_congr fun goal => and_congr_right fun _ => ?_
  split <;> rfl

theorem Sound.fst_isExhaustedAmong_iff (hp : p.Sound) (ids : List GoalId) :
    (p.isExhaustedAmong ids).1 = true ↔
      ∃ goal ∈ p.goals, goal.id ∈ ids ∧ goal.sequent.applicableRules = [] := by
  induction ids generalizing p with
  | nil => simp [isExhaustedAmong]
  | cons id ids ih =>
    rw [isExhaustedAmong]
    simp only [hp.fst_applicableRules_eq_some_iff, snd_applicableRules]
    split
    · rename_i hfirst
      obtain ⟨goal, hgoal, hid, hrules⟩ := hfirst
      simp only [true_iff]
      exact ⟨goal, hgoal, by simp [hid], hrules⟩
    · rename_i hfirst
      -- the other goals are looked at after the rules of the first were remembered
      rw [ih (hp.remember id), exists_remember_iff
        (P := fun id' q => id' ∈ ids ∧ q.applicableRules = [])]
      constructor
      · rintro ⟨goal, hgoal, hid, hrules⟩
        exact ⟨goal, hgoal, List.mem_cons_of_mem _ hid, hrules⟩
      · rintro ⟨goal, hgoal, hid, hrules⟩
        rcases List.mem_cons.1 hid with hid | hid
        · exact absurd ⟨goal, hgoal, hid, hrules⟩ hfirst
        · exact ⟨goal, hgoal, hid, hrules⟩

/-- **A proof state is exhausted** if no rule is applicable to one of its goals. -/
theorem Sound.fst_isExhausted_iff (hp : p.Sound) :
    p.isExhausted.1 = true ↔ ∃ goal ∈ p.goals, goal.sequent.applicableRules = [] := by
  rw [isExhausted, hp.fst_isExhaustedAmong_iff]
  refine exists_congr fun goal => and_congr_right fun hgoal => ?_
  exact and_iff_right (List.mem_map_of_mem hgoal)

/-! ### New goals -/

/-- One more goal under the next number keeps the invariant. -/
theorem Sound.insert (hp : p.Sound) {q : Sequent} (hq : p.store.OwnsSequent q) {next : GoalId}
    (hnext : next.index = p.next.index + 1) :
    Sound { p with goals := p.goals ++ [⟨p.next, q, none⟩], next := next } where
  wellFormed := hp.wellFormed
  owns := List.forall_mem_append.2 ⟨hp.owns, by simpa using hq⟩
  applicable := List.forall_mem_append.2 ⟨hp.applicable, by simp [Goal.applicable]⟩
  ordered := by
    refine List.pairwise_append.2 ⟨hp.ordered, List.pairwise_singleton _ _, ?_⟩
    simpa using hp.below
  below := by
    refine List.forall_mem_append.2 ⟨fun goal hgoal => ?_, by simp [hnext]⟩
    have hlt := hp.below goal hgoal
    show goal.id.index < next.index
    omega

/-- **What opening goals does**: they come after the goals that are open, in order and under the
next numbers. -/
theorem Sound.openGoals (hp : p.Sound) {qs : List Sequent}
    (hqs : ∀ q ∈ qs, p.store.OwnsSequent q) {children : List GoalId}
    (h : p.openGoals qs = .ok (children, p')) :
    p'.Sound ∧ p'.store = p.store ∧ p'.sequents = p.sequents ++ qs ∧
      children.map (·.index) = List.range' p.next.index qs.length ∧
      p'.next.index = p.next.index + qs.length := by
  induction qs generalizing p children with
  | nil =>
    obtain ⟨rfl, rfl⟩ := Prod.mk.inj (Except.ok.inj h)
    exact ⟨hp, rfl, (List.append_nil _).symm, rfl, rfl⟩
  | cons q qs ih =>
    obtain ⟨hq, hqs⟩ := List.forall_mem_cons.1 hqs
    rw [ProofState.openGoals] at h
    split at h
    · cases h
    · rename_i next hnext
      have hindex := GoalId.ofNat_eq_ok hnext
      split at h
      · cases h
      · rename_i ids last hopen
        obtain ⟨rfl, rfl⟩ := Prod.mk.inj (Except.ok.inj h)
        obtain ⟨hsound, hstore, hsequents, hids, hlast⟩ := ih (hp.insert hq hindex) hqs hopen
        refine ⟨hsound, hstore, ?_, ?_, ?_⟩
        · rw [hsequents]
          simp [sequents]
        · rw [List.map_cons, hids, List.length_cons, List.range'_succ]
          simp only [hindex]
        · simp only [hlast, hindex, List.length_cons]
          omega

/-- Goals cannot be opened only if there are not enough numbers left. -/
theorem openGoals_eq_error {qs : List Sequent} {fault : Fault}
    (h : p.openGoals qs = .error fault) :
    fault = .idTooLarge ∧ UInt32.size ≤ p.next.index + qs.length := by
  induction qs generalizing p with
  | nil => cases h
  | cons q qs ih =>
    rw [openGoals] at h
    split at h
    · rename_i other hnext
      obtain rfl := Except.error.inj h
      obtain ⟨hfault, hsize⟩ := GoalId.ofNat_eq_error hnext
      refine ⟨hfault, ?_⟩
      rw [List.length_cons]
      omega
    · rename_i next hnext
      have hindex := GoalId.ofNat_eq_ok hnext
      split at h
      · rename_i other hopen
        cases h
        obtain ⟨hfault, hsize⟩ := ih hopen
        refine ⟨hfault, ?_⟩
        simp only [hindex, List.length_cons] at hsize ⊢
        omega
      · cases h

/-! ### Refining -/

theorem Sound.refine_eq_nothingToDo (hp : p.Sound)
    (h : ∀ goal ∈ p.goals, goal.id = id → rule ∉ goal.sequent.applicableRules) :
    p.refine id rule = .ok (.nothingToDo, p.remember id) := by
  unfold ProofState.refine
  cases hfind : p.find? id with
  | none =>
    show Except.ok (Refinement.nothingToDo, p) = _
    have hlook := snd_applicableRules p id
    unfold applicableRules at hlook
    rw [hfind] at hlook
    rw [← hlook]
  | some goal =>
    obtain ⟨hgoal, hid⟩ := hp.find?_eq_some_iff.1 hfind
    exact if_neg (hp.applicable goal hgoal ▸ h goal hgoal hid)

/-- A rule that is applicable to an open goal is applied to it. -/
theorem Sound.refine_eq_replace (hp : p.Sound) (hgoal : goal ∈ p.goals)
    (hrule : rule ∈ goal.sequent.applicableRules) :
    p.refine goal.id rule = (p.remember goal.id).replace goal rule := by
  unfold ProofState.refine
  rw [hp.find?_eq_some_iff.2 ⟨hgoal, rfl⟩]
  exact if_pos (hp.applicable goal hgoal ▸ hrule)

theorem Sound.refine_eq_closed (hp : p.Sound) (hgoal : goal ∈ p.goals)
    (hax : goal.sequent.isAxiom = true) :
    p.refine goal.id .ax = .ok (.closed, p.close goal.id) := by
  rw [hp.refine_eq_replace hgoal (Sequent.ax_mem_applicableRules.2 hax), replace, Rule.apply, hax]
  show Except.ok (Refinement.closed, (p.remember goal.id).close goal.id) = _
  rw [close_remember]

theorem Sound.refine_eq_expanded (hp : p.Sound) (hgoal : goal ∈ p.goals)
    {premises : List Sequent} (hinfers : Infers p.store rule goal.sequent premises) :
    p.refine goal.id rule =
      ((p.close goal.id).openGoals premises).map fun opened => (.expanded opened.1, opened.2) := by
  have hrule : rule ∈ goal.sequent.applicableRules :=
    (mem_applicableRules_iff hp.wellFormed (hp.owns goal hgoal)).2 (.inr ⟨premises, hinfers⟩)
  have happly : rule.apply (p.remember goal.id).store goal.sequent = .ok (.subgoals premises) :=
    Rule.apply_eq_subgoals_iff.2 (subgoals_eq_ok_iff.2 hinfers)
  rw [hp.refine_eq_replace hgoal hrule, replace, happly]
  simp only [close_remember]
  cases (p.close goal.id).openGoals premises <;> rfl

end SequentCalculus.ProofState
