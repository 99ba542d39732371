import SequentCalculus.Address
import SequentCalculus.Rule.Weight

/-!
# Interactive proofs

A proof state holds the open goals of a proof.  Refining a goal by one of its applicable rules
replaces it by the subgoals of the rule, or closes it.  Any other request to refine changes
nothing, so a request may come late.  Goals are numbered in the order in which they come up, and
no number is used twice before all goals are dropped.

The applicable rules of a goal are worked out when they are first asked for and remembered with
the goal.  Refining lowers the potential of the state (`potential_refine_lt`).
-/

namespace SequentCalculus

/-- An open goal. -/
structure Goal where
  id : GoalId
  sequent : Sequent
  /-- The applicable rules, once they have been worked out. -/
  rules : Option (List Rule)
  deriving DecidableEq

/-- The state of an interactive proof. -/
structure ProofState where
  store : Store
  /-- The open goals by increasing number. -/
  goals : List Goal
  /-- The number of the next goal. -/
  next : GoalId
  deriving DecidableEq

/-- What a request to refine a goal came to. -/
inductive Refinement where
  /-- There is no such goal, or the rule is not applicable to it: nothing changed. -/
  | nothingToDo
  /-- The goal was an axiom and is gone. -/
  | closed
  /-- The goal was replaced by these, in the order of the rule's subgoals. -/
  | expanded (children : List GoalId)
  deriving DecidableEq, Repr

namespace ProofState

/-! ### Starting and looking -/

/-- The state with a sequent as its only goal, which gets number 0. -/
def loadSequent (p : ProofState) (q : Sequent) : ProofState :=
  { p with goals := [⟨.zero, q, none⟩], next := ⟨1, by decide⟩ }

/-- The state whose only goal is the empty sequent. -/
def ofStore (s : Store) : ProofState :=
  loadSequent ⟨s, [], .zero⟩ .empty

/-- The state without goals; numbers start again from 0. -/
def reset (p : ProofState) : ProofState :=
  { p with goals := [], next := .zero }

/-- Reads a sequent and makes it the only goal.  What cannot be read changes nothing. -/
def load (p : ProofState) (text : String) : Except InputError ProofState :=
  match p.store.readSequent text with
  | .error error => .error error
  | .ok (q, store) => .ok (loadSequent { p with store := store } q)

/-- The open goal with a number. -/
def find? (p : ProofState) (id : GoalId) : Option Goal :=
  p.goals.find? (·.id == id)

/-- The sequent of an open goal. -/
def goal? (p : ProofState) (id : GoalId) : Option Sequent :=
  (p.find? id).map (·.sequent)

/-- The numbers of the open goals, increasing. -/
def ids (p : ProofState) : List GoalId :=
  p.goals.map (·.id)

/-- The lowest number of an open goal. -/
def first? (p : ProofState) : Option GoalId :=
  p.ids.head?

/-- Whether no goal is left. -/
def isComplete (p : ProofState) : Bool :=
  p.goals.isEmpty

/-! ### Applicable rules -/

end ProofState

/-- The applicable rules of a goal, remembered or worked out. -/
def Goal.applicable (goal : Goal) : List Rule :=
  goal.rules.getD goal.sequent.applicableRules

/-- The goal with its applicable rules remembered. -/
def Goal.remember (goal : Goal) : Goal :=
  { goal with rules := some goal.applicable }

namespace ProofState

/-- The state in which the applicable rules of a goal are remembered. -/
def remember (p : ProofState) (id : GoalId) : ProofState :=
  { p with goals := p.goals.map fun goal => if goal.id = id then goal.remember else goal }

/-- What is remembered already is not worked out again. -/
theorem remember_remember (p : ProofState) (id : GoalId) :
    (p.remember id).remember id = p.remember id := by
  have hgoal : ∀ goal : Goal, (if (if goal.id = id then goal.remember else goal).id = id then
      (if goal.id = id then goal.remember else goal).remember
      else if goal.id = id then goal.remember else goal) =
        if goal.id = id then goal.remember else goal := by
    intro goal
    by_cases hid : goal.id = id
    · have hremember : goal.remember.id = id := hid
      rw [if_pos hid, if_pos hremember]
      rfl
    · rw [if_neg hid, if_neg hid]
  unfold remember
  simp only [List.map_map, Function.comp_def, hgoal]

/-- A goal is found with its rules after they were looked at. -/
theorem find?_remember (p : ProofState) (id : GoalId) :
    (p.remember id).find? id = (p.find? id).map Goal.remember := by
  have hid : ∀ goal : Goal, (if goal.id = id then goal.remember else goal).id = goal.id := by
    intro goal
    split <;> rfl
  unfold find? remember
  simp only [List.find?_map, Function.comp_def, hid]
  cases hfind : p.goals.find? (·.id == id) with
  | none => rfl
  | some goal =>
    have hfound : goal.id = id := by simpa using List.find?_some hfind
    rw [Option.map_some, if_pos hfound, Option.map_some]

/-- The applicable rules of a goal; `none` if it is not open. -/
def applicableRules (p : ProofState) (id : GoalId) : Option (List Rule) × ProofState :=
  match p.find? id with
  | none => (none, p)
  | some goal => (some goal.applicable, p.remember id)

/-- The rule at an address. -/
def ruleAt (p : ProofState) (address : Address) : Option Rule × ProofState :=
  let rules := p.applicableRules address.goal
  (rules.1.bind (·[address.rule]?), rules.2)

/-- Whether one of the given goals has no applicable rule; they are only looked at up to the first
such goal. -/
def isExhaustedAmong (p : ProofState) : List GoalId → Bool × ProofState
  | [] => (false, p)
  | id :: ids =>
    let rules := p.applicableRules id
    if rules.1 = some [] then (true, rules.2) else isExhaustedAmong rules.2 ids

/-- Whether some goal has no applicable rule, so that the proof can never be completed. -/
def isExhausted (p : ProofState) : Bool × ProofState :=
  p.isExhaustedAmong p.ids

/-! ### Refining -/

/-- The state without a goal. -/
def close (p : ProofState) (id : GoalId) : ProofState :=
  { p with goals := p.goals.filter (·.id != id) }

/-- Adds goals under the next numbers. -/
def openGoals (p : ProofState) : List Sequent → Except Fault (List GoalId × ProofState)
  | [] => .ok ([], p)
  | q :: qs =>
    match GoalId.ofNat (p.next.index + 1) with
    | .error fault => .error fault
    | .ok next =>
      match openGoals { p with goals := p.goals ++ [⟨p.next, q, none⟩], next := next } qs with
      | .error fault => .error fault
      | .ok (ids, p') => .ok (p.next :: ids, p')

/-- Applies a rule to a goal and puts what comes of it in the goal's place. -/
def replace (p : ProofState) (goal : Goal) (rule : Rule) :
    Except Fault (Refinement × ProofState) :=
  match rule.apply p.store goal.sequent with
  | .error fault => .error fault
  | .ok .failed => .error .notClosed
  | .ok .closed => .ok (.closed, p.close goal.id)
  | .ok (.subgoals subgoals) =>
    match (p.close goal.id).openGoals subgoals with
    | .error fault => .error fault
    | .ok (children, p') => .ok (.expanded children, p')

/-- Refines a goal by a rule. -/
def refine (p : ProofState) (id : GoalId) (rule : Rule) :
    Except Fault (Refinement × ProofState) :=
  match p.find? id with
  | none => .ok (.nothingToDo, p)
  | some goal =>
    if rule ∈ goal.applicable then (p.remember id).replace goal rule
    else .ok (.nothingToDo, p.remember id)

/-- Refines a goal by the rule at an address. -/
def refineAt (p : ProofState) (address : Address) : Except Fault (Refinement × ProofState) :=
  match p.ruleAt address with
  | (none, p) => .ok (.nothingToDo, p)
  | (some rule, p) => p.refine address.goal rule

/-- A rule that was looked up is found again in the state that looking it up has left. -/
theorem refineAt_of_ruleAt {p next : ProofState} {address : Address} {rule : Rule}
    (h : p.ruleAt address = (some rule, next)) :
    next.refineAt address = next.refine address.goal rule := by
  unfold ruleAt applicableRules at h
  cases hfind : p.find? address.goal with
  | none =>
    -- without the goal there is no rule
    rw [hfind] at h
    cases h
  | some goal =>
    rw [hfind] at h
    obtain ⟨hrule, rfl⟩ := Prod.mk.inj h
    have hagain : (p.remember address.goal).ruleAt address =
        (some rule, p.remember address.goal) := by
      unfold ruleAt applicableRules
      rw [find?_remember, hfind, remember_remember]
      exact Prod.ext hrule rfl
    rw [refineAt, hagain]

/-! ### Termination -/

/-- A bound on the refinements that are still possible. -/
def potential (p : ProofState) : Nat :=
  sumBy (fun goal => p.store.potential goal.sequent) p.goals

theorem potential_remember (p : ProofState) (id : GoalId) :
    (p.remember id).potential = p.potential := by
  rw [potential, potential, remember, sumBy_map]
  congr 1
  funext goal
  split <;> rfl

theorem store_openGoals {p p' : ProofState} {qs : List Sequent} {ids : List GoalId}
    (h : p.openGoals qs = .ok (ids, p')) :
    p'.store = p.store ∧ p'.potential = p.potential + sumBy p.store.potential qs := by
  induction qs generalizing p p' ids with
  | nil =>
    obtain ⟨-, rfl⟩ := Prod.mk.inj (Except.ok.inj h)
    exact ⟨rfl, by simp⟩
  | cons q qs ih =>
    rw [openGoals] at h
    split at h
    · cases h
    · split at h
      · cases h
      · rename_i hrest
        obtain ⟨-, rfl⟩ := Prod.mk.inj (Except.ok.inj h)
        obtain ⟨hstore, hpotential⟩ := ih hrest
        refine ⟨hstore, ?_⟩
        rw [hpotential]
        simp only [potential, sumBy_append, sumBy_cons, sumBy_nil]
        omega

/-- Closing a goal takes away at least its own potential. -/
theorem potential_close_add_le {p : ProofState} {goal : Goal} (h : goal ∈ p.goals) :
    (p.close goal.id).potential + p.store.potential goal.sequent ≤ p.potential := by
  have hsum : ∀ goals : List Goal,
      sumBy (fun g => p.store.potential g.sequent) (goals.filter (·.id != goal.id)) ≤
        sumBy (fun g => p.store.potential g.sequent) goals := by
    intro goals
    induction goals with
    | nil => simp
    | cons g goals ih =>
      simp only [List.filter_cons, sumBy_cons]
      split
      · rw [sumBy_cons]
        omega
      · omega
  have hmem : ∀ goals : List Goal, goal ∈ goals →
      sumBy (fun g => p.store.potential g.sequent) (goals.filter (·.id != goal.id)) +
        p.store.potential goal.sequent ≤ sumBy (fun g => p.store.potential g.sequent) goals := by
    intro goals hgoal
    induction goals with
    | nil => simp at hgoal
    | cons g goals ih =>
      rcases List.mem_cons.1 hgoal with rfl | hgoal
      · -- the goal itself is filtered out
        have hle := hsum goals
        simp only [List.filter_cons, bne_self_eq_false, Bool.false_eq_true, if_false,
          sumBy_cons]
        omega
      · have hle := ih hgoal
        simp only [List.filter_cons, sumBy_cons]
        split
        · rw [sumBy_cons]
          omega
        · omega
  exact hmem p.goals h

/-- Putting the outcome of a rule in the place of a goal lowers the potential. -/
theorem potential_replace_lt {p p' : ProofState} {goal : Goal} {rule : Rule}
    {refinement : Refinement} (hgoal : goal ∈ p.goals)
    (h : p.replace goal rule = .ok (refinement, p')) : p'.potential < p.potential := by
  have hclose := potential_close_add_le hgoal
  have hpos := Store.potential_pos (s := p.store) goal.sequent
  rw [replace] at h
  split at h
  · cases h
  · cases h
  · obtain ⟨-, rfl⟩ := Prod.mk.inj (Except.ok.inj h)
    omega
  · rename_i subgoals happly
    have hlt := Store.potential_subgoals_lt (Rule.apply_eq_subgoals_iff.1 happly)
    split at h
    · cases h
    · rename_i hopen
      obtain ⟨-, rfl⟩ := Prod.mk.inj (Except.ok.inj h)
      have hsum := (store_openGoals hopen).2
      have hstore : (p.close goal.id).store = p.store := rfl
      rw [hstore] at hsum
      omega

/-- A refinement that does something lowers the potential. -/
theorem potential_refine_lt {p p' : ProofState} {id : GoalId} {rule : Rule}
    {refinement : Refinement} (h : p.refine id rule = .ok (refinement, p'))
    (hdone : refinement ≠ .nothingToDo) : p'.potential < p.potential := by
  rw [refine] at h
  split at h
  · obtain ⟨rfl, -⟩ := Prod.mk.inj (Except.ok.inj h)
    exact absurd rfl hdone
  · rename_i goal hfind
    split at h
    · have hmem : goal.remember ∈ (p.remember id).goals := by
        refine List.mem_map.2 ⟨goal, List.mem_of_find?_eq_some hfind, ?_⟩
        rw [if_pos (by simpa using List.find?_some hfind)]
      rw [← potential_remember p id]
      exact potential_replace_lt hmem h
    · obtain ⟨rfl, -⟩ := Prod.mk.inj (Except.ok.inj h)
      exact absurd rfl hdone

end ProofState

end SequentCalculus
