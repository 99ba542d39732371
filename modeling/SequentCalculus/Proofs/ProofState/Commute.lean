import SequentCalculus.Proofs.ProofState.Calls
import Mathlib.Logic.Equiv.Defs

/-!
# Refinements of different goals commute

What comes of a rule on a goal depends on the sequent of the goal and on the store alone
(`Responds`): the goal stays, it is closed, or it makes way for premises.  The other goals are left
alone, and the premises come after all of them, under the next numbers.  So a refinement, whichever
of the three it is, is described by what is kept of the goal and by the premises
(`Sound.refine_eq`), and two refinements of different goals are put together from two such
descriptions (`Sound.requests_pair`).

The order of the two shows in the numbers of the new goals only.  Those of the first goal come
before those of the second or after them, and exchanging the two blocks of numbers
(`GoalId.exchange`) turns the end of one order into the end of the other (`exists_renumbers`).
-/

namespace SequentCalculus

/-! ### Blocks of numbers -/

/-- Exchanges a block of `k` numbers from `n` on with the block of `l` numbers that follows it. -/
def exchange (n k l i : Nat) : Nat :=
  if n ≤ i ∧ i < n + k then i + l
  else if n + k ≤ i ∧ i < n + k + l then i - k
  else i

/-- Exchanging the blocks in their new order undoes the exchange. -/
theorem exchange_exchange (n k l i : Nat) : exchange n l k (exchange n k l i) = i := by
  unfold exchange
  split_ifs <;> omega

theorem exchange_lt {n k l i bound : Nat} (h : n + k + l ≤ bound) (hi : i < bound) :
    exchange n k l i < bound := by
  unfold exchange
  split_ifs <;> omega

/-- Numbers outside of both blocks stay where they are. -/
theorem exchange_eq_self {n k l i : Nat} (h : i < n ∨ n + k + l ≤ i) : exchange n k l i = i := by
  unfold exchange
  split_ifs <;> omega

/-- The first block comes to stand behind the second one, with its order kept. -/
theorem map_exchange_first (n k l : Nat) :
    (List.range' n k).map (exchange n k l) = List.range' (n + l) k := by
  rw [Nat.add_comm n l, ← List.map_add_range']
  refine List.map_congr_left fun i hi => ?_
  rw [List.mem_range'_1] at hi
  rw [exchange, if_pos hi, Nat.add_comm]

theorem map_exchange_second (n k l : Nat) :
    (List.range' (n + k) l).map (exchange n k l) = List.range' n l := by
  rw [← map_exchange_first n l k, List.map_map]
  exact (List.map_congr_left fun i _ => exchange_exchange n l k i).trans (List.map_id _)

/-- The exchange of two blocks of goal numbers. -/
def GoalId.exchange (n k l : Nat) (h : n + k + l ≤ UInt32.size) : Equiv.Perm GoalId where
  toFun id := ⟨SequentCalculus.exchange n k l id.index, exchange_lt h id.index_lt⟩
  invFun id := ⟨SequentCalculus.exchange n l k id.index, exchange_lt (by omega) id.index_lt⟩
  left_inv id := GoalId.index_inj (exchange_exchange n k l id.index)
  right_inv id := GoalId.index_inj (exchange_exchange n l k id.index)

theorem GoalId.map_exchange {n k l : Nat} {h : n + k + l ≤ UInt32.size} {ids ids' : List GoalId}
    (hindices : (ids.map (·.index)).map (SequentCalculus.exchange n k l) = ids'.map (·.index)) :
    ids.map (GoalId.exchange n k l h) = ids' := by
  refine List.map_injective_iff.2 (fun _ _ => GoalId.index_inj) ?_
  rw [← hindices, List.map_map, List.map_map]
  rfl

/-- The goal under another number. -/
def Goal.renumber (σ : Equiv.Perm GoalId) (goal : Goal) : Goal :=
  { goal with id := σ goal.id }

/-- The refinement with other numbers. -/
def Refinement.renumber (σ : Equiv.Perm GoalId) : Refinement → Refinement
  | .nothingToDo => .nothingToDo
  | .closed => .closed
  | .expanded children => .expanded (children.map σ)

/-! ### Responses -/

/-- What comes of a rule on a goal. -/
inductive Response where
  /-- The rule is not applicable, and the goal stays. -/
  | stays
  /-- The goal is closed. -/
  | closes
  /-- The goal makes way for premises. -/
  | opens (premises : List Sequent)

namespace Response

/-- What is kept of the goal. -/
def kept (goal : Goal) : Response → List Goal
  | .stays => [goal.remember]
  | .closes => []
  | .opens _ => []

/-- The premises that are opened. -/
def premises : Response → List Sequent
  | .stays => []
  | .closes => []
  | .opens premises => premises

/-- What is told about it. -/
def refinement (children : List GoalId) : Response → Refinement
  | .stays => .nothingToDo
  | .closes => .closed
  | .opens _ => .expanded children

theorem id_of_mem_kept {response : Response} {goal g : Goal} (h : g ∈ response.kept goal) :
    g.id = goal.id := by
  cases response with
  | stays =>
    rw [List.mem_singleton.1 h]
    rfl
  | closes => cases h
  | opens => cases h

end Response

/-- **How a sequent responds to a rule.** -/
inductive Responds (s : Store) (rule : Rule) (q : Sequent) : Response → Prop
  | stays (h : rule ∉ q.applicableRules) : Responds s rule q .stays
  | closes (hrule : rule = .ax) (hax : q.isAxiom = true) : Responds s rule q .closes
  | opens {premises : List Sequent} (h : Infers s rule q premises) :
      Responds s rule q (.opens premises)

/-- A sequent responds to every rule, in one of the three ways. -/
theorem exists_responds {s : Store} (hs : s.WellFormed) {q : Sequent} (hq : s.OwnsSequent q)
    (rule : Rule) : ∃ response, Responds s rule q response := by
  by_cases hrule : rule ∈ q.applicableRules
  · -- an applicable rule is the closing rule on an axiom, or has premises
    rcases (mem_applicableRules_iff hs hq).1 hrule with ⟨rfl, hax⟩ | ⟨premises, hinfers⟩
    · exact ⟨_, .closes rfl hax⟩
    · exact ⟨_, .opens hinfers⟩
  · exact ⟨_, .stays hrule⟩

theorem Responds.length_premises_le {s : Store} {rule : Rule} {q : Sequent} {response : Response}
    (h : Responds s rule q response) : response.premises.length ≤ 2 := by
  cases h with
  | stays => exact Nat.zero_le 2
  | closes => exact Nat.zero_le 2
  | opens hinfers => exact hinfers.length_le

/-- A goal that has just come up. -/
def Goal.fresh (id : GoalId) (q : Sequent) : Goal :=
  ⟨id, q, none⟩

namespace ProofState

variable {p p' : ProofState} {goal : Goal} {rule : Rule} {response : Response}

/-! ### One refinement -/

/-- The state in which a goal has made way for what is kept of it. -/
def settle (p : ProofState) (goal : Goal) (response : Response) : ProofState :=
  { p with goals := p.goals.flatMap fun g => if g.id = goal.id then response.kept goal else [g] }

/-- The state with more goals. -/
def extend (p : ProofState) (children : List GoalId) (qs : List Sequent) (next : GoalId) :
    ProofState :=
  { p with goals := p.goals ++ List.zipWith Goal.fresh children qs, next := next }

/-- Goals are opened behind the others, under one number after the other. -/
theorem openGoals_eq_ok {qs : List Sequent} {children : List GoalId}
    (h : p.openGoals qs = .ok (children, p')) :
    p' = p.extend children qs p'.next ∧
      children.map (·.index) = List.range' p.next.index qs.length ∧
      p'.next.index = p.next.index + qs.length := by
  induction qs generalizing p children with
  | nil =>
    obtain ⟨rfl, rfl⟩ := Prod.mk.inj (Except.ok.inj h)
    exact ⟨by simp [extend], rfl, rfl⟩
  | cons q qs ih =>
    rw [openGoals] at h
    split at h
    · cases h
    · rename_i next hnext
      have hindex := GoalId.ofNat_eq_ok hnext
      split at h
      · cases h
      · rename_i ids last hopen
        obtain ⟨rfl, rfl⟩ := Prod.mk.inj (Except.ok.inj h)
        obtain ⟨hlast, hids, hnumber⟩ := ih hopen
        refine ⟨?_, ?_, ?_⟩
        · rw [hlast]
          simp [extend, Goal.fresh]
        · rw [List.map_cons, hids, List.length_cons, List.range'_succ]
          simp only [hindex]
        · simp only [hnumber, hindex, List.length_cons]
          omega

/-- Looking at the rules of a goal settles it as one that stays. -/
theorem Sound.remember_eq_settle (hp : p.Sound) (hgoal : goal ∈ p.goals) :
    p.remember goal.id = p.settle goal .stays := by
  have hgoals : p.goals.map (fun g => if g.id = goal.id then g.remember else g) =
      p.goals.flatMap fun g => if g.id = goal.id then [goal.remember] else [g] := by
    rw [← List.flatMap_singleton' (p.goals.map _), List.flatMap_map]
    refine List.flatMap_congr fun g hg => ?_
    split
    · rename_i hid
      rw [hp.eq_of_id_eq hg hgoal hid]
    · rfl
  rw [ProofState.remember, hgoals]
  rfl

theorem close_eq_settle (p : ProofState) (goal : Goal) (response : Response)
    (hkept : response.kept goal = []) : p.close goal.id = p.settle goal response := by
  have hgoals : p.goals.filter (·.id != goal.id) =
      p.goals.flatMap fun g => if g.id = goal.id then response.kept goal else [g] := by
    induction p.goals with
    | nil => rfl
    | cons g goals ih => by_cases hid : g.id = goal.id <;> simp [hid, hkept, ih]
  rw [close, hgoals]
  rfl

/-- A refinement, whichever it is: the goal makes way for what is kept of it, and the premises are
opened. -/
theorem Sound.refine_eq (hp : p.Sound) (hgoal : goal ∈ p.goals)
    (h : Responds p.store rule goal.sequent response) :
    p.refine goal.id rule = ((p.settle goal response).openGoals response.premises).map fun opened =>
      (response.refinement opened.1, opened.2) := by
  cases h with
  | stays h =>
    have hnothing : ∀ g ∈ p.goals, g.id = goal.id → rule ∉ g.sequent.applicableRules :=
      fun g hg hid => hp.eq_of_id_eq hg hgoal hid ▸ h
    rw [hp.refine_eq_nothingToDo hnothing, hp.remember_eq_settle hgoal]
    rfl
  | closes hrule hax =>
    rw [hrule, hp.refine_eq_closed hgoal hax, close_eq_settle p goal .closes rfl]
    rfl
  | @opens premises hinfers =>
    rw [hp.refine_eq_expanded hgoal hinfers, close_eq_settle p goal (.opens premises) rfl]
    rfl

/-- **One refinement**: the state it leads to, unless numbers run out. -/
theorem Sound.refine_responds (hp : p.Sound) (hgoal : goal ∈ p.goals)
    (h : Responds p.store rule goal.sequent response) :
    (∃ children next, p.refine goal.id rule = .ok (response.refinement children,
        (p.settle goal response).extend children response.premises next) ∧
      children.map (·.index) = List.range' p.next.index response.premises.length ∧
      next.index = p.next.index + response.premises.length) ∨
    (p.refine goal.id rule = .error .idTooLarge ∧
      UInt32.size ≤ p.next.index + response.premises.length) := by
  rw [hp.refine_eq hgoal h]
  cases hopen : (p.settle goal response).openGoals response.premises with
  | error fault =>
    obtain ⟨rfl, hsize⟩ := openGoals_eq_error hopen
    exact .inr ⟨rfl, hsize⟩
  | ok opened =>
    obtain ⟨hstate, hchildren, hnext⟩ := openGoals_eq_ok hopen
    refine .inl ⟨opened.1, opened.2.next, ?_, hchildren, hnext⟩
    rw [← hstate]
    rfl

/-! ### Two refinements -/

section Pair

variable {g h : Goal} {r r' : Rule} {ρ τ : Response}

theorem mem_settle_of_ne {other : Goal} (hother : other ∈ p.goals) (hne : other.id ≠ goal.id) :
    other ∈ (p.settle goal response).goals := by
  refine List.mem_flatMap.2 ⟨other, hother, ?_⟩
  rw [if_neg hne]
  exact List.mem_singleton_self other

/-- Goals with other numbers stay when a goal is settled. -/
theorem flatMap_settle_of_ne {goals : List Goal} (hne : ∀ g ∈ goals, g.id ≠ goal.id) :
    (goals.flatMap fun g => if g.id = goal.id then response.kept goal else [g]) = goals := by
  refine (List.flatMap_congr fun g hg => if_neg (hne g hg)).trans ?_
  exact List.flatMap_singleton' goals

/-- **Goals with different numbers are settled in any order.** -/
theorem settle_comm (p : ProofState) (hne : g.id ≠ h.id) :
    (p.settle g ρ).settle h τ = (p.settle h τ).settle g ρ := by
  have hgoals : ∀ x : Goal,
      ((if x.id = g.id then ρ.kept g else [x]).flatMap fun y =>
        if y.id = h.id then τ.kept h else [y]) =
      ((if x.id = h.id then τ.kept h else [x]).flatMap fun y =>
        if y.id = g.id then ρ.kept g else [y]) := by
    intro x
    by_cases hg : x.id = g.id
    · -- what is kept of a goal has its number, so the other settling passes it over
      have hh : x.id ≠ h.id := hg ▸ hne
      rw [if_pos hg, if_neg hh, flatMap_settle_of_ne fun y hy =>
        Response.id_of_mem_kept hy ▸ hne, List.flatMap_singleton, if_pos hg]
    · by_cases hh : x.id = h.id
      · rw [if_neg hg, if_pos hh, List.flatMap_singleton, if_pos hh,
          flatMap_settle_of_ne fun y hy => Response.id_of_mem_kept hy ▸ hne.symm]
      · simp [hg, hh]
  simp only [settle, List.flatMap_assoc, hgoals]

theorem id_mem_of_mem_zipWith_fresh {children : List GoalId} {qs : List Sequent}
    (h : goal ∈ List.zipWith Goal.fresh children qs) : goal.id ∈ children := by
  obtain ⟨pair, hpair, rfl⟩ := List.mem_map.1 (List.map_uncurry_zip_eq_zipWith ▸ h)
  exact (List.of_mem_zip hpair).1

/-- Goals that were opened before are no concern of a goal that is settled. -/
theorem settle_extend {children : List GoalId} (hne : goal.id ∉ children) (qs : List Sequent)
    (next : GoalId) : (p.extend children qs next).settle goal response =
      (p.settle goal response).extend children qs next := by
  have hnew : ∀ g ∈ List.zipWith Goal.fresh children qs, g.id ≠ goal.id :=
    fun g hg hid => hne (hid ▸ id_mem_of_mem_zipWith_fresh hg)
  simp only [settle, extend, List.flatMap_append, flatMap_settle_of_ne hnew]

theorem lt_of_mem_settle {bound : Nat} (hgoal : goal.id.index < bound)
    (hgoals : ∀ g ∈ p.goals, g.id.index < bound) :
    ∀ g ∈ (p.settle goal response).goals, g.id.index < bound := by
  intro g hg
  obtain ⟨x, hx, hmem⟩ := List.mem_flatMap.1 hg
  split at hmem
  · rw [Response.id_of_mem_kept hmem]
    exact hgoal
  · rw [List.mem_singleton.1 hmem]
    exact hgoals x hx

/-- **Two refinements of different goals**: both goals are settled, and the premises of the first
come before those of the second. -/
theorem Sound.requests_pair (hp : p.Sound) (hg : g ∈ p.goals) (hh : h ∈ p.goals)
    (hne : g.id ≠ h.id) (hρ : Responds p.store r g.sequent ρ)
    (hτ : Responds p.store r' h.sequent τ) :
    (∃ cs ds mid next, p.requests [.refine g.id r, .refine h.id r'] =
        .ok ([ρ.refinement cs, τ.refinement ds],
          (((p.settle g ρ).settle h τ).extend cs ρ.premises mid).extend ds τ.premises next) ∧
      cs.map (·.index) = List.range' p.next.index ρ.premises.length ∧
      ds.map (·.index) =
        List.range' (p.next.index + ρ.premises.length) τ.premises.length ∧
      next.index = p.next.index + ρ.premises.length + τ.premises.length) ∨
    (p.requests [.refine g.id r, .refine h.id r'] = .error .idTooLarge ∧
      UInt32.size ≤ p.next.index + ρ.premises.length + τ.premises.length) := by
  rcases hp.refine_responds hg hρ with ⟨cs, mid, hfirst, hcs, hmid⟩ | ⟨herror, hsize⟩
  · have hsound := (hp.leads_of_request (r := .refine g.id r) hfirst).sound
    have hopen : h ∈ ((p.settle g ρ).extend cs ρ.premises mid).goals :=
      List.mem_append_left _ (mem_settle_of_ne hh hne.symm)
    -- the numbers that the first goal is replaced by are new
    have hold : h.id ∉ cs := by
      intro hmem
      have hindex : h.id.index ∈ cs.map (·.index) := List.mem_map_of_mem hmem
      rw [hcs, List.mem_range'_1] at hindex
      have hlt := hp.below h hh
      omega
    rcases hsound.refine_responds hopen hτ with ⟨ds, next, hsecond, hds, hnext⟩ | ⟨herror, hsize⟩
    · refine .inl ⟨cs, ds, mid, next, ?_, hcs, hmid ▸ hds, hmid ▸ hnext⟩
      rw [settle_extend hold] at hsecond
      simp only [requests, request, hfirst, hsecond, Except.map]
    · refine .inr ⟨?_, hmid ▸ hsize⟩
      simp only [requests, request, hfirst, herror, Except.map]
  · -- the first refinement has already run out of numbers
    refine .inr ⟨?_, by omega⟩
    simp only [requests, request, herror]

end Pair

/-! ### Outcomes -/

/-- **What is told of a refinement fits the response**, and new goals are found under their numbers,
in the order of the premises. -/
inductive Shows (p : ProofState) : Response → Refinement → Prop
  | stays : Shows p .stays .nothingToDo
  | closes : Shows p .closes .closed
  | opens {premises : List Sequent} {children : List GoalId}
      (h : children.map p.goal? = premises.map some) :
      Shows p (.opens premises) (.expanded children)

/-- **Two states that differ only in how the goals that are new since a third are numbered.** -/
structure Renumbers (p : ProofState) (σ : Equiv.Perm GoalId) (p₁ p₂ : ProofState) : Prop where
  store : p₂.store = p₁.store
  next : p₂.next = p₁.next
  fixes : ∀ id : GoalId, id.index < p.next.index ∨ p₁.next.index ≤ id.index → σ id = id
  goals : p₂.goals.Perm (p₁.goals.map (Goal.renumber σ))

/-- Goals that have come up are found under their numbers. -/
theorem Sound.map_goal? (hp : p.Sound) {children : List GoalId} {qs : List Sequent}
    (hlength : children.length = qs.length)
    (h : ∀ goal ∈ List.zipWith Goal.fresh children qs, goal ∈ p.goals) :
    children.map p.goal? = qs.map some := by
  induction children generalizing qs with
  | nil =>
    cases qs with
    | nil => rfl
    | cons => cases hlength
  | cons child children ih =>
    cases qs with
    | nil => cases hlength
    | cons q qs =>
      rw [List.zipWith_cons_cons, List.forall_mem_cons] at h
      have hfind := hp.find?_eq_some_iff.2 ⟨h.1, rfl⟩
      rw [List.map_cons, List.map_cons, ih (Nat.succ.inj hlength) h.2, goal?]
      exact congrArg (· :: _) (congrArg (Option.map (·.sequent)) hfind)

theorem Sound.shows (hp : p.Sound) {children : List GoalId} {start : Nat}
    (hindices : children.map (·.index) = List.range' start response.premises.length)
    (h : ∀ goal ∈ List.zipWith Goal.fresh children response.premises, goal ∈ p.goals) :
    p.Shows response (response.refinement children) := by
  cases response with
  | stays => exact .stays
  | closes => exact .closes
  | opens premises =>
    have hlength : children.length = premises.length := by
      simpa [Response.premises] using congrArg List.length hindices
    exact .opens (hp.map_goal? hlength h)

theorem renumber_refinement {σ : Equiv.Perm GoalId} {children : List GoalId} :
    (response.refinement children).renumber σ = response.refinement (children.map σ) := by
  cases response <;> rfl

theorem map_renumber_zipWith_fresh (σ : Equiv.Perm GoalId) (children : List GoalId)
    (qs : List Sequent) : (List.zipWith Goal.fresh children qs).map (Goal.renumber σ) =
      List.zipWith Goal.fresh (children.map σ) qs := by
  rw [List.map_zipWith, List.zipWith_map_left]
  rfl

/-- Whichever block of new goals comes first, the goals are the same up to their numbers. -/
theorem perm_goals_extend {σ : Equiv.Perm GoalId} (hfixes : ∀ goal ∈ p.goals, σ goal.id = goal.id)
    (cs ds : List GoalId) (qs qs' : List Sequent) (mid mid' next next' : GoalId) :
    ((p.extend (ds.map σ) qs' mid').extend (cs.map σ) qs next').goals.Perm
      (((p.extend cs qs mid).extend ds qs' next).goals.map (Goal.renumber σ)) := by
  have hold : p.goals.map (Goal.renumber σ) = p.goals := by
    refine (List.map_congr_left fun goal hgoal => ?_).trans (List.map_id _)
    rw [Goal.renumber, hfixes goal hgoal]
    rfl
  simp only [extend, List.map_append, map_renumber_zipWith_fresh, hold, List.append_assoc]
  exact List.perm_append_comm.append_left p.goals

/-- **The two ends are alike**: the exchange of the two blocks of new numbers turns the one into the
other. -/
theorem exists_renumbers {kept : ProofState}
    (hkept : ∀ goal ∈ kept.goals, goal.id.index < p.next.index) {qs qs' : List Sequent}
    {cs ds cs' ds' : List GoalId} {next next' : GoalId} (mid mid' : GoalId)
    (hcs : cs.map (·.index) = List.range' p.next.index qs.length)
    (hds : ds.map (·.index) = List.range' (p.next.index + qs.length) qs'.length)
    (hnext : next.index = p.next.index + qs.length + qs'.length)
    (hds' : ds'.map (·.index) = List.range' p.next.index qs'.length)
    (hcs' : cs'.map (·.index) = List.range' (p.next.index + qs'.length) qs.length)
    (hnext' : next'.index = p.next.index + qs'.length + qs.length) :
    ∃ σ, p.Renumbers σ ((kept.extend cs qs mid).extend ds qs' next)
        ((kept.extend ds' qs' mid').extend cs' qs next') ∧
      cs.map σ = cs' ∧ ds.map σ = ds' := by
  have hroom : p.next.index + qs.length + qs'.length ≤ UInt32.size :=
    hnext ▸ Nat.le_of_lt next.index_lt
  let σ := GoalId.exchange p.next.index qs.length qs'.length hroom
  have hσcs : cs.map σ = cs' := GoalId.map_exchange (by rw [hcs, map_exchange_first, hcs'])
  have hσds : ds.map σ = ds' := GoalId.map_exchange (by rw [hds, map_exchange_second, hds'])
  have hfixes : ∀ goal ∈ kept.goals, σ goal.id = goal.id := fun goal hgoal =>
    GoalId.index_inj (exchange_eq_self (.inl (hkept goal hgoal)))
  refine ⟨σ, ⟨rfl, ?_, fun id hid => ?_, ?_⟩, hσcs, hσds⟩
  · show next' = next
    exact GoalId.index_inj (by omega)
  · exact GoalId.index_inj (exchange_eq_self (hnext ▸ hid))
  · rw [← hσcs, ← hσds]
    exact perm_goals_extend hfixes cs ds qs qs' mid mid' next next'

/-- **Refinements of different goals commute.**  What comes of each of the two depends on its own
goal and rule.  As long as there are numbers for all premises, both orders are granted, tell the
same of each goal, leave a third goal as it is, and end in states that differ only in the numbers of
the new goals.  Otherwise numbers run out in both orders. -/
theorem refinements_commute {given : List GoalId} (hp : Reached p given) {g h : Goal}
    (hg : g ∈ p.goals) (hh : h ∈ p.goals) (hne : g.id ≠ h.id) (r r' : Rule) :
    ∃ ρ τ, Responds p.store r g.sequent ρ ∧ Responds p.store r' h.sequent τ ∧
      (p.next.index + ρ.premises.length + τ.premises.length < UInt32.size →
        ∃ x y x' y' p₁ p₂,
          p.requests [.refine g.id r, .refine h.id r'] = .ok ([x, y], p₁) ∧
          p.requests [.refine h.id r', .refine g.id r] = .ok ([y', x'], p₂) ∧
          p₁.Shows ρ x ∧ p₂.Shows ρ x' ∧ p₁.Shows τ y ∧ p₂.Shows τ y' ∧
          (∀ third ∈ p.goals, third.id ≠ g.id → third.id ≠ h.id →
            p₁.find? third.id = some third ∧ p₂.find? third.id = some third) ∧
          ∃ σ, p.Renumbers σ p₁ p₂ ∧ x' = x.renumber σ ∧ y' = y.renumber σ) ∧
      (UInt32.size ≤ p.next.index + ρ.premises.length + τ.premises.length →
        p.requests [.refine g.id r, .refine h.id r'] = .error .idTooLarge ∧
        p.requests [.refine h.id r', .refine g.id r] = .error .idTooLarge) := by
  obtain ⟨-, hsound⟩ := hp.sound
  obtain ⟨ρ, hρ⟩ := exists_responds hsound.wellFormed (hsound.owns g hg) r
  obtain ⟨τ, hτ⟩ := exists_responds hsound.wellFormed (hsound.owns h hh) r'
  have hfirst := hsound.requests_pair hg hh hne hρ hτ
  have hsecond := hsound.requests_pair hh hg hne.symm hτ hρ
  rw [← settle_comm p hne] at hsecond
  refine ⟨ρ, τ, hρ, hτ, fun hroom => ?_, fun hsize => ⟨?_, ?_⟩⟩
  · -- there are numbers for all premises, so both orders are granted
    obtain ⟨cs, ds, mid, next, hok, hcs, hds, hnext⟩ := hfirst.resolve_right fun hout => by omega
    obtain ⟨ds', cs', mid', next', hok', hds', hcs', hnext'⟩ :=
      hsecond.resolve_right fun hout => by omega
    have hsound₁ := ((course_of_requests hok).sound hsound).1
    have hsound₂ := ((course_of_requests hok').sound hsound).1
    have hbelow : ∀ goal ∈ ((p.settle g ρ).settle h τ).goals, goal.id.index < p.next.index :=
      lt_of_mem_settle (hsound.below h hh) (lt_of_mem_settle (hsound.below g hg) hsound.below)
    obtain ⟨σ, hσ, hσcs, hσds⟩ := exists_renumbers hbelow mid mid' hcs hds hnext hds' hcs' hnext'
    refine ⟨_, _, _, _, _, _, hok, hok',
      hsound₁.shows hcs fun _ hgoal => List.mem_append_left _ (List.mem_append_right _ hgoal),
      hsound₂.shows hcs' fun _ hgoal => List.mem_append_right _ hgoal,
      hsound₁.shows hds fun _ hgoal => List.mem_append_right _ hgoal,
      hsound₂.shows hds' fun _ hgoal => List.mem_append_left _ (List.mem_append_right _ hgoal),
      fun third hthird hneg hneh => ?_, σ, hσ, ?_, ?_⟩
    · have hkept : third ∈ ((p.settle g ρ).settle h τ).goals :=
        mem_settle_of_ne (mem_settle_of_ne hthird hneg) hneh
      exact ⟨hsound₁.find?_eq_some_iff.2
          ⟨List.mem_append_left _ (List.mem_append_left _ hkept), rfl⟩,
        hsound₂.find?_eq_some_iff.2
          ⟨List.mem_append_left _ (List.mem_append_left _ hkept), rfl⟩⟩
    · rw [renumber_refinement, hσcs]
    · rw [renumber_refinement, hσds]
  · -- the next number would be too large
    refine (hfirst.resolve_left ?_).1
    rintro ⟨_, _, _, next, -, -, -, hnext⟩
    have hlt := next.index_lt
    omega
  · refine (hsecond.resolve_left ?_).1
    rintro ⟨_, _, _, next, -, -, -, hnext⟩
    have hlt := next.index_lt
    omega

/-- The goals `A | B => C -> D` and `A | B => E` have one and two premises.  The numbers 3, 4 and 5
are given out in two ways. -/
theorem refinements_commute_of_conjunction :
    let split : Rule := .logical .right .and ⟨9, .compound (.bin .and)⟩
    let r : Rule := .logical .right .implies ⟨7, .compound (.bin .implies)⟩
    let r' : Rule := .logical .left .or ⟨4, .compound (.bin .or)⟩
    let id (n : Fin 6) : GoalId := ⟨n, by have hn := n.isLt; simp [UInt32.size]; omega⟩
    ∃ p p₁ p₂ σ, Reached p [id 0, id 1, id 2] ∧
      (ofStore (.ofPolicy {})).calls [.load "A | B => (C -> D) & E", .refine (id 0) split] =
        .ok ([(.load "A | B => (C -> D) & E", .loaded none),
          (.refine (id 0) split, .refined (.expanded [id 1, id 2]))], p) ∧
      p.requests [.refine (id 1) r, .refine (id 2) r'] =
        .ok ([.expanded [id 3], .expanded [id 4, id 5]], p₁) ∧
      p.requests [.refine (id 2) r', .refine (id 1) r] =
        .ok ([.expanded [id 3, id 4], .expanded [id 5]], p₂) ∧
      p.Renumbers σ p₁ p₂ := by
  intro split r r' id
  let made : List Call := [.load "A | B => (C -> D) & E", .refine (id 0) split]
  let told (p : ProofState) (rs : List Request) : Option (List Refinement) :=
    (p.requests rs).toOption.map (·.1)
  have hmade : ((ofStore (.ofPolicy {})).calls made).toOption.map (·.1) =
      some [(.load "A | B => (C -> D) & E", .loaded none),
        (.refine (id 0) split, .refined (.expanded [id 1, id 2]))] := by
    decide +kernel
  obtain ⟨p, hcalls⟩ := exists_calls_eq_ok hmade
  have hproper : ∀ c ∈ made, ∀ q, c.Proper q := by
    simp [made, Call.Proper]
  have hreached : Reached p [id 0, id 1, id 2] :=
    (Reached.start (Store.reachable_ofPolicy {})).calls hproper hcalls
  have hlook : ((ofStore (.ofPolicy {})).calls made).toOption.map (fun x =>
      (x.2.ids, x.2.next, told x.2 [.refine (id 1) r, .refine (id 2) r'],
        told x.2 [.refine (id 2) r', .refine (id 1) r])) =
      some ([id 1, id 2], id 3, some [.expanded [id 3], .expanded [id 4, id 5]],
        some [.expanded [id 3, id 4], .expanded [id 5]]) := by
    decide +kernel
  rw [hcalls] at hlook
  simp only [Except.toOption, Option.map_some, Option.some.injEq, Prod.mk.injEq] at hlook
  obtain ⟨hids, hnext, htold, htold'⟩ := hlook
  obtain ⟨g, hg, hgid⟩ : ∃ g ∈ p.goals, g.id = id 1 := List.mem_map.1 (by rw [← ids, hids]; simp)
  obtain ⟨h, hh, hhid⟩ : ∃ h ∈ p.goals, h.id = id 2 := List.mem_map.1 (by rw [← ids, hids]; simp)
  have hne : g.id ≠ h.id := by simp [hgid, hhid, id]
  obtain ⟨ρ, τ, hρ, hτ, hboth, -⟩ := refinements_commute hreached hg hh hne r r'
  have hroom : p.next.index + ρ.premises.length + τ.premises.length < UInt32.size := by
    have hleρ := hρ.length_premises_le
    have hleτ := hτ.length_premises_le
    rw [hnext]
    simp [id, UInt32.size]
    omega
  obtain ⟨x, y, x', y', p₁, p₂, hok, hok', -, -, -, -, -, σ, hσ, -, -⟩ := hboth hroom
  rw [hgid, hhid] at hok hok'
  have htells : [.expanded [id 3], .expanded [id 4, id 5]] = [x, y] :=
    Option.some.inj (htold.symm.trans (congrArg (·.toOption.map (·.1)) hok))
  have htells' : [.expanded [id 3, id 4], .expanded [id 5]] = [y', x'] :=
    Option.some.inj (htold'.symm.trans (congrArg (·.toOption.map (·.1)) hok'))
  exact ⟨p, p₁, p₂, σ, hreached, hcalls, htells ▸ hok, htells' ▸ hok', hσ⟩

end ProofState

end SequentCalculus
