import SequentCalculus.Proofs.ProofState.Course
import Mathlib.Algebra.Group.Nat.Defs

/-!
# The calls of a proof state

A proof state is used through nine kinds of call: a sequent is loaded, all goals are dropped, goals
and rules are looked at, goals are refined, and formulas are interned in the store that the proof is
about.  Calls come in any order, with any numbers, addresses and rules.  Only interning has a
contract: a connective gets as many formulas as it joins, and they are formulas of the store
(`Call.Proper`).

What an answered call can do to the state is said once, by `CallStep`.  Three things follow for
every state that calls lead to (`Reached`):

* the state is sound, so that what is remembered of a goal is what would be worked out for it;
* goal numbers are given out without gaps, from 0 and each of them once (`Reached.map_index`);
* a call is answered, unless the numbers for the subgoals of a rule run out (`Sound.call_cases`).
-/

namespace SequentCalculus

/-! ### Calls -/

/-- A call that interns.  The builders for single connectives are cases of `compound`. -/
inductive Interning where
  | atom (name : String)
  | compound (connective : Connective) (parts : List Formula)
  | expr (e : Expr)
  | sequent (e : SequentExpr)
  deriving DecidableEq

/-- What interning returns. -/
inductive Interned where
  | formula (f : Formula)
  | sequent (q : Sequent)
  deriving DecidableEq

/-- Interns formulas in a store. -/
def Store.interning (s : Store) : Interning → Except Fault (Interned × Store)
  | .atom name => .ok (.formula (s.atom name).1, (s.atom name).2)
  | .compound connective parts =>
    (s.compound connective parts).map fun built => (.formula built.1, built.2)
  | .expr e => .ok (.formula (e.build s).1, (e.build s).2)
  | .sequent e => .ok (.sequent (e.build s).1, (e.build s).2)

/-- The contract of interning. -/
def Interning.Proper (s : Store) : Interning → Prop
  | .compound connective parts => parts.length = connective.arity ∧ ∀ part ∈ parts, s.Owns part
  | .atom _ | .expr _ | .sequent _ => True

/-- A call of a proof state. -/
inductive Call where
  | load (text : String)
  | reset
  | goal (id : GoalId)
  | applicableRules (id : GoalId)
  | ruleAt (address : Address)
  | refine (id : GoalId) (rule : Rule)
  | refineAt (address : Address)
  | isExhausted
  | intern (interning : Interning)
  deriving DecidableEq

/-- What a call returns. -/
inductive Answer where
  /-- A sequent was loaded, or else why not. -/
  | loaded (error : Option InputError)
  | dropped
  | goal (q : Option Sequent)
  | rules (rules : Option (List Rule))
  | rule (rule : Option Rule)
  | refined (refinement : Refinement)
  | exhausted (exhausted : Bool)
  | interned (interned : Interned)
  deriving DecidableEq

namespace ProofState

/-- Makes a call. -/
def call (p : ProofState) : Call → Except Fault (Answer × ProofState)
  | .load text =>
    match p.load text with
    | .ok p' => .ok (.loaded none, p')
    | .error error => .ok (.loaded (some error), p)
  | .reset => .ok (.dropped, p.reset)
  | .goal id => .ok (.goal (p.goal? id), p)
  | .applicableRules id => .ok (.rules (p.applicableRules id).1, (p.applicableRules id).2)
  | .ruleAt address => .ok (.rule (p.ruleAt address).1, (p.ruleAt address).2)
  | .refine id rule => (p.refine id rule).map fun refined => (.refined refined.1, refined.2)
  | .refineAt address => (p.refineAt address).map fun refined => (.refined refined.1, refined.2)
  | .isExhausted => .ok (.exhausted p.isExhausted.1, p.isExhausted.2)
  | .intern interning => (p.store.interning interning).map fun built =>
      (.interned built.1, { p with store := built.2 })

end ProofState

/-- The contract of a call. -/
def Call.Proper (p : ProofState) : Call → Prop
  | .intern interning => interning.Proper p.store
  | _ => True

/-- The rule by which a call refines a goal. -/
def Call.rule? (p : ProofState) : Call → Option Rule
  | .refine _ rule => some rule
  | .refineAt address => (p.ruleAt address).1
  | _ => none

/-- Whether an answer leaves the numbers of the goals alone. -/
def Answer.isQuiet : Answer → Bool
  | .loaded none => false
  | .dropped => false
  | .refined (.expanded _) => false
  | _ => true

/-- The goal numbers that were given out since the goals were last dropped.  Loading drops all goals
and gives out number 0. -/
def Answer.given (before : List GoalId) : Answer → List GoalId
  | .loaded none => [.zero]
  | .dropped => []
  | .refined (.expanded children) => before ++ children
  | _ => before

theorem Answer.given_of_isQuiet {answer : Answer} (h : answer.isQuiet = true)
    (given : List GoalId) : answer.given given = given := by
  unfold Answer.given
  split <;> first | rfl | cases h

namespace ProofState

variable {p p' : ProofState} {id : GoalId} {rule : Rule} {refinement : Refinement}

/-- **The states that calls lead to**, with the goal numbers that were given out since the goals
were last dropped. -/
inductive Reached : ProofState → List GoalId → Prop
  | start {s : Store} (hs : s.Reachable) : Reached (ofStore s) [.zero]
  | call {p p' : ProofState} {given : List GoalId} {c : Call} {answer : Answer}
      (h : Reached p given) (hproper : c.Proper p) (hcall : p.call c = .ok (answer, p')) :
      Reached p' (answer.given given)

/-- Makes calls one after the other, and writes down what they return. -/
def calls (p : ProofState) : List Call → Except Fault (List (Call × Answer) × ProofState)
  | [] => .ok ([], p)
  | c :: cs =>
    match p.call c with
    | .error fault => .error fault
    | .ok (answer, next) => (next.calls cs).map fun rest => ((c, answer) :: rest.1, rest.2)

theorem calls_cons_eq_ok {c : Call} {cs : List Call} {log : List (Call × Answer)}
    (h : p.calls (c :: cs) = .ok (log, p')) : ∃ answer next rest,
      p.call c = .ok (answer, next) ∧ next.calls cs = .ok (rest, p') ∧
      log = (c, answer) :: rest := by
  rw [calls] at h
  cases hcall : p.call c with
  | error fault =>
    rw [hcall] at h
    cases h
  | ok called =>
    rw [hcall] at h
    cases hrest : called.2.calls cs with
    | error fault =>
      simp only [hrest] at h
      cases h
    | ok rest =>
      simp only [hrest] at h
      cases h
      exact ⟨called.1, called.2, rest.1, rfl, hrest, rfl⟩

/-- A session whose answers are known ends in some state. -/
theorem exists_calls_eq_ok {cs : List Call} {log : List (Call × Answer)}
    (h : (p.calls cs).toOption.map (·.1) = some log) : ∃ p', p.calls cs = .ok (log, p') := by
  cases hcalls : p.calls cs with
  | error fault =>
    rw [hcalls] at h
    cases h
  | ok called =>
    rw [hcalls] at h
    obtain rfl := Option.some.inj h
    exact ⟨called.2, rfl⟩

/-- Calls without a contract lead to reached states. -/
theorem Reached.calls {given : List GoalId} {cs : List Call} {log : List (Call × Answer)}
    (h : Reached p given) (hproper : ∀ c ∈ cs, ∀ q, c.Proper q)
    (hcalls : p.calls cs = .ok (log, p')) :
    Reached p' (log.foldl (fun given entry => entry.2.given given) given) := by
  induction cs generalizing p given log with
  | nil =>
    cases hcalls
    exact h
  | cons c cs ih =>
    obtain ⟨answer, next, rest, hcall, hrest, rfl⟩ := calls_cons_eq_ok hcalls
    rw [List.forall_mem_cons] at hproper
    rw [List.foldl_cons]
    exact ih (h.call (hproper.1 p) hcall) hproper.2 hrest

/-! ### Refining at an address -/

/-- A goal is refined in the same way after its rules were looked at: what is remembered of it goes
away with it. -/
theorem refine_remember (p : ProofState) (id : GoalId) (rule : Rule) :
    (p.remember id).refine id rule = p.refine id rule := by
  unfold refine
  rw [find?_remember]
  cases hfind : p.find? id with
  | none =>
    have hlook := snd_applicableRules p id
    unfold applicableRules at hlook
    rw [hfind] at hlook
    exact congrArg (fun next => Except.ok (Refinement.nothingToDo, next)) hlook.symm
  | some goal =>
    show (if rule ∈ goal.applicable then
      ((p.remember id).remember id).replace goal rule else _) = _
    rw [remember_remember]

/-- **To refine at an address** is to refine by the rule that stands there. -/
theorem refineAt_eq (p : ProofState) (address : Address) :
    p.refineAt address = match (p.ruleAt address).1 with
      | none => .ok (.nothingToDo, p.remember address.goal)
      | some rule => p.refine address.goal rule := by
  have hlook : (p.ruleAt address).2 = p.remember address.goal := snd_applicableRules p address.goal
  unfold refineAt
  cases hrule : p.ruleAt address with
  | mk found next =>
    rw [hrule] at hlook
    cases found with
    | none => rw [← hlook]
    | some rule =>
      have hnext : next = p.remember address.goal := hlook
      rw [hnext]
      exact refine_remember p address.goal rule

/-! ### Steps -/

/-- Interning does what it is asked for, and the store grows by it. -/
theorem exists_interning {s : Store} (hs : s.WellFormed) {interning : Interning}
    (h : interning.Proper s) : ∃ built, s.interning interning = .ok built ∧ s.Grows built.2 := by
  cases interning with
  | atom name => exact ⟨_, rfl, .single (.atom s name)⟩
  | compound connective parts =>
    obtain ⟨hlength, howns⟩ := h
    have hgrows : ∀ built, s.compound connective parts = .ok built →
        ∃ interned, s.interning (.compound connective parts) = .ok interned ∧
          s.Grows interned.2 := by
      intro built hbuilt
      refine ⟨(.formula built.1, built.2), ?_, .single (.compound howns hbuilt)⟩
      rw [Store.interning, hbuilt]
      rfl
    match connective, parts, hlength with
    | .not, [a], _ => exact hgrows (s.not a) rfl
    | .bin op, [a, b], _ => exact hgrows (s.binary op a b) rfl
  | expr e => exact ⟨_, rfl, Store.grows_build hs e⟩
  | sequent e => exact ⟨_, rfl, (Store.grows_build_sequent hs e).1⟩

/-- The new goals of a refinement get the next numbers, as many as the rule has subgoals. -/
structure Numbered (p : ProofState) (rule : Rule) (children : List GoalId) (p' : ProofState) :
    Prop where
  length : children.length = rule.name.numSubgoals
  indices : children.map (·.index) = List.range' p.next.index children.length
  next : p'.next.index = p.next.index + children.length

theorem Refines.numbered {children : List GoalId} (h : p.Refines id rule (.expanded children) p')
    (hp : p.Sound) : p.Numbered rule children p' := by
  cases h with
  | @expanded goal premises _ _ hgoal hid hinfers hopen =>
    have howns := hinfers.owns hp.wellFormed (hp.owns goal hgoal)
    obtain ⟨-, -, -, hchildren, hnext⟩ := (hp.close id).openGoals howns hopen
    have hlength : children.length = premises.length := by
      simpa using congrArg List.length hchildren
    exact ⟨hlength.trans hinfers.length_eq, hlength ▸ hchildren, hlength ▸ hnext⟩

/-- **What an answered call can do**: it looks, which changes nothing but what is remembered of a
goal, or closes an axiom; or it is of one of four other kinds. -/
inductive CallStep (p : ProofState) : Call → Answer → ProofState → Prop
  | look {c : Call} {answer : Answer} {p' : ProofState} (hsound : p'.Sound)
      (hstore : p'.store = p.store) (hnext : p'.next = p.next)
      (hquiet : answer.isQuiet = true) : CallStep p c answer p'
  | load {text : String} {e : SequentExpr} (htext : SequentExpr.read text = .ok e) :
      CallStep p (.load text) (.loaded none)
        (loadSequent { p with store := (e.build p.store).2 } (e.build p.store).1)
  | reset : CallStep p .reset .dropped p.reset
  | refine {c : Call} {rule : Rule} {children : List GoalId} {p' : ProofState}
      (hrule : c.rule? p = some rule) (hleads : p.Leads (.expanded children) p')
      (hnumbered : p.Numbered rule children p') :
      CallStep p c (.refined (.expanded children)) p'
  | intern {interning : Interning} {interned : Interned} {t : Store} (hgrows : p.store.Grows t) :
      CallStep p (.intern interning) (.interned interned) { p with store := t }

/-- A rule is to be applied, but there are not enough numbers left for its subgoals. -/
def LacksNumbers (p : ProofState) (c : Call) : Prop :=
  ∃ rule, c.rule? p = some rule ∧ UInt32.size ≤ p.next.index + rule.name.numSubgoals

theorem Refines.callStep {c : Call} (hc : c.rule? p = some rule)
    (h : p.Refines id rule refinement p') (hp : p.Sound) :
    CallStep p c (.refined refinement) p' := by
  have hleads := h.leads hp
  cases h with
  | nothing => exact .look hleads.sound rfl rfl rfl
  | closed => exact .look hleads.sound rfl rfl rfl
  | expanded hgoal hid hinfers hopen =>
    have hrefines : p.Refines id rule (.expanded _) p' := .expanded hgoal hid hinfers hopen
    exact .refine hc hleads (hrefines.numbered hp)

theorem Sound.refine_callStep (hp : p.Sound) (id : GoalId) {c : Call}
    (hc : c.rule? p = some rule) :
    (∃ refinement p', p.refine id rule = .ok (refinement, p') ∧
        CallStep p c (.refined refinement) p') ∨
      (p.refine id rule = .error .idTooLarge ∧ p.LacksNumbers c) := by
  rcases hp.refines_or_outOfNumbers id rule with
    ⟨refinement, p', hok, hrefines⟩ | ⟨herror, goal, hgoal, premises, hinfers, hsize⟩
  · exact .inl ⟨refinement, p', hok, hrefines.callStep hc hp⟩
  · exact .inr ⟨herror, rule, hc, hinfers.length_eq ▸ hsize⟩

theorem Sound.isExhausted (hp : p.Sound) : p.isExhausted.2.Sound ∧
    p.isExhausted.2.store = p.store ∧ p.isExhausted.2.next = p.next := by
  obtain ⟨hsound, hstore, hnext⟩ := (course_isExhaustedAmong p p.ids).sound hp
  exact ⟨hsound, hstore, GoalId.index_inj hnext⟩

/-- **The step lemma**: a call is answered, or goal numbers have run out. -/
theorem Sound.call_cases (hp : p.Sound) {c : Call} (hproper : c.Proper p) :
    (∃ answer p', p.call c = .ok (answer, p') ∧ CallStep p c answer p') ∨
      (p.call c = .error .idTooLarge ∧ p.LacksNumbers c) := by
  have hlook (id : GoalId) : (p.applicableRules id).2.Sound ∧
      (p.applicableRules id).2.store = p.store ∧ (p.applicableRules id).2.next = p.next := by
    rw [snd_applicableRules]
    exact ⟨hp.remember id, rfl, rfl⟩
  cases c with
  | load text =>
    cases hload : p.load text with
    | error error =>
      exact .inl ⟨.loaded (some error), p, by rw [call, hload], .look hp rfl rfl rfl⟩
    | ok loaded =>
      obtain ⟨e, htext, rfl⟩ := load_eq_ok hload
      exact .inl ⟨.loaded none, _, by rw [call, hload], .load htext⟩
  | reset => exact .inl ⟨_, _, rfl, .reset⟩
  | goal id => exact .inl ⟨_, _, rfl, .look hp rfl rfl rfl⟩
  | applicableRules id =>
    obtain ⟨hsound, hstore, hnext⟩ := hlook id
    exact .inl ⟨_, _, rfl, .look hsound hstore hnext rfl⟩
  | ruleAt address =>
    obtain ⟨hsound, hstore, hnext⟩ := hlook address.goal
    exact .inl ⟨_, _, rfl, .look hsound hstore hnext rfl⟩
  | refine id rule =>
    rcases hp.refine_callStep id (c := .refine id rule) rfl with
      ⟨refinement, p', hok, hstep⟩ | ⟨herror, hlacks⟩
    · exact .inl ⟨_, p', by rw [call, hok]; rfl, hstep⟩
    · exact .inr ⟨by rw [call, herror]; rfl, hlacks⟩
  | refineAt address =>
    rw [call, refineAt_eq]
    cases hrule : (p.ruleAt address).1 with
    | none => exact .inl ⟨_, _, rfl, .look (hp.remember address.goal) rfl rfl rfl⟩
    | some rule =>
      rcases hp.refine_callStep address.goal (c := .refineAt address) hrule with
        ⟨refinement, p', hok, hstep⟩ | ⟨herror, hlacks⟩
      · exact .inl ⟨.refined refinement, p', by simp only [hok, Except.map], hstep⟩
      · exact .inr ⟨by simp only [herror, Except.map], hlacks⟩
  | isExhausted =>
    obtain ⟨hsound, hstore, hnext⟩ := hp.isExhausted
    exact .inl ⟨_, _, rfl, .look hsound hstore hnext rfl⟩
  | intern interning =>
    obtain ⟨built, hbuilt, hgrows⟩ := exists_interning hp.wellFormed hproper
    exact .inl ⟨_, _, by rw [call, hbuilt]; rfl, .intern hgrows⟩

theorem Sound.callStep (hp : p.Sound) {c : Call} {answer : Answer} (hproper : c.Proper p)
    (hcall : p.call c = .ok (answer, p')) : CallStep p c answer p' := by
  rcases hp.call_cases hproper with ⟨answer', next, hok, hstep⟩ | ⟨herror, -⟩
  · rw [hcall] at hok
    cases hok
    exact hstep
  · rw [hcall] at herror
    cases herror

/-- Refining has no contract. -/
theorem proper_of_refined {c : Call} (hcall : p.call c = .ok (.refined refinement, p')) :
    c.Proper p := by
  cases c with
  | intern interning =>
    rw [call] at hcall
    cases hbuilt : p.store.interning interning <;> rw [hbuilt] at hcall <;> cases hcall
  | _ => trivial

/-! ### What calls keep -/

theorem CallStep.sound {c : Call} {answer : Answer} (h : CallStep p c answer p')
    (hs : p.store.Reachable) (hp : p.Sound) : p'.store.Reachable ∧ p'.Sound := by
  cases h with
  | look hsound hstore => exact ⟨hstore ▸ hs, hsound⟩
  | load => exact sound_load hs _
  | reset => exact ⟨hs, hp.reset⟩
  | refine _ hleads => exact ⟨hleads.store ▸ hs, hleads.sound⟩
  | intern hgrows => exact ⟨hs.grow hgrows, hp.grow hgrows⟩

/-- Numbers are given out without gaps. -/
theorem CallStep.map_index {c : Call} {answer : Answer} (h : CallStep p c answer p')
    {given : List GoalId} (hgiven : given.map (·.index) = List.range p.next.index) :
    (answer.given given).map (·.index) = List.range p'.next.index := by
  cases h with
  | look _ _ hnext hquiet => rw [Answer.given_of_isQuiet hquiet, hnext, hgiven]
  | load => rfl
  | reset => rfl
  | refine _ _ hnumbered =>
    rw [Answer.given, List.map_append, hgiven, hnumbered.indices, hnumbered.next, List.range_add,
      List.range'_eq_map_range]
  | intern => exact hgiven

theorem Reached.sound {given : List GoalId} (h : Reached p given) :
    p.store.Reachable ∧ p.Sound := by
  induction h with
  | start hs => exact ⟨hs, sound_ofStore hs.wellFormed⟩
  | call _ hproper hcall ih => exact (ih.2.callStep hproper hcall).sound ih.1 ih.2

theorem Reached.map_index {given : List GoalId} (h : Reached p given) :
    given.map (·.index) = List.range p.next.index := by
  induction h with
  | start => rfl
  | call hreached hproper hcall ih => exact (hreached.sound.2.callStep hproper hcall).map_index ih

/-- What applying an applicable rule comes to: its principal formula stands on its side and has its
kind, and the closing rule closes. -/
theorem Sound.apply_applicable (hp : p.Sound) {goal : Goal} (hgoal : goal ∈ p.goals)
    (hrule : rule ∈ goal.sequent.applicableRules) :
    (rule = .ax ∧ rule.apply p.store goal.sequent = .ok .closed) ∨
      ∃ side shape f subgoals, rule = .logical side shape f ∧ f ∈ goal.sequent.side side ∧
        f.kind = shape.kind ∧ rule.apply p.store goal.sequent = .ok (.subgoals subgoals) := by
  rcases (mem_applicableRules_iff hp.wellFormed (hp.owns goal hgoal)).1 hrule with
    ⟨rfl, hax⟩ | ⟨premises, hinfers⟩
  · exact .inl ⟨rfl, by simp [Rule.apply, hax]⟩
  · have hsubgoals := subgoals_eq_ok_iff.2 hinfers
    obtain ⟨side, shape, f, _, _, rfl, hkind, hmem, -⟩ := Store.subgoals_eq_ok hsubgoals
    exact .inr ⟨side, shape, f, premises, rfl, hmem, hkind,
      Rule.apply_eq_subgoals_iff.2 hsubgoals⟩

/-- **The invariant of proof states under calls.**  The next number is the number of goals that came
up since the goals were last dropped, and no number is given out twice.  What is remembered of a
goal is what would be worked out for it, and every goal is a sequent of the store.  New goals get
consecutive numbers, above all that were given out before and as many as the rule has subgoals.
Every call is answered as long as there are fewer than 2 ^ 32 goals, since a rule that is applied
finds its principal formula, and the closing rule an axiom. -/
theorem calls_keep_invariant {given : List GoalId} (h : Reached p given) :
    (p.next.index = given.length ∧ given.Nodup ∧
      ∀ goal ∈ p.goals, goal.id ∈ given ∧ goal.id.index < p.next.index) ∧
    (∀ goal ∈ p.goals, ∀ rules, goal.rules = some rules → rules = goal.sequent.applicableRules) ∧
    (∀ goal ∈ p.goals, ∀ side, ∀ f ∈ goal.sequent.side side, p.store.get? f.index = some f) ∧
    (∀ c children p', p.call c = .ok (.refined (.expanded children), p') →
      ∃ rule, c.rule? p = some rule ∧ children.length = rule.name.numSubgoals ∧
        children.map (·.index) = List.range' p.next.index children.length ∧
        ∀ child ∈ children, ∀ old ∈ given, old.index < child.index) ∧
    (∀ c, c.Proper p → (∃ answer p', p.call c = .ok (answer, p')) ∨
      (p.call c = .error .idTooLarge ∧
        ∃ rule, c.rule? p = some rule ∧ 2 ^ 32 ≤ given.length + rule.name.numSubgoals)) ∧
    ∀ goal ∈ p.goals, ∀ rule ∈ goal.sequent.applicableRules,
      (rule = .ax ∧ rule.apply p.store goal.sequent = .ok .closed) ∨
      ∃ side shape f subgoals, rule = .logical side shape f ∧ f ∈ goal.sequent.side side ∧
        f.kind = shape.kind ∧ rule.apply p.store goal.sequent = .ok (.subgoals subgoals) := by
  obtain ⟨hs, hp⟩ := h.sound
  have hindices := h.map_index
  have hlength : p.next.index = given.length := by
    simpa using (congrArg List.length hindices).symm
  have hmem : ∀ old ∈ given, old.index < p.next.index := by
    intro old hold
    have hindex : old.index ∈ given.map (·.index) := List.mem_map_of_mem hold
    rwa [hindices, List.mem_range] at hindex
  refine ⟨⟨hlength, ?_, ?_⟩, ?_, fun goal hgoal side f hf => hp.owns goal hgoal side f hf, ?_, ?_,
    fun goal hgoal rule hrule => hp.apply_applicable hgoal hrule⟩
  · refine List.Nodup.of_map (·.index) ?_
    rw [hindices]
    exact List.nodup_range
  · intro goal hgoal
    have hlt := hp.below goal hgoal
    -- every number below the next one was given out
    have hindex : goal.id.index ∈ given.map (·.index) := by
      rw [hindices]
      exact List.mem_range.2 hlt
    obtain ⟨old, hold, hsame⟩ := List.mem_map.1 hindex
    exact ⟨GoalId.index_inj hsame ▸ hold, hlt⟩
  · intro goal hgoal rules hrules
    have happlicable := hp.applicable goal hgoal
    rw [Goal.applicable, hrules] at happlicable
    exact happlicable
  · intro c children p' hcall
    cases hp.callStep (proper_of_refined hcall) hcall with
    | look _ _ _ hquiet => cases hquiet
    | refine hrule hleads hnumbered =>
      refine ⟨_, hrule, hnumbered.length, hnumbered.indices, fun child hchild old hold => ?_⟩
      have hindex : child.index ∈ children.map (·.index) := List.mem_map_of_mem hchild
      rw [hnumbered.indices, List.mem_range'_1] at hindex
      have hlt := hmem old hold
      omega
  · intro c hproper
    rcases hp.call_cases hproper with ⟨answer, p', hok, -⟩ | ⟨herror, rule, hrule, hsize⟩
    · exact .inl ⟨answer, p', hok⟩
    · exact .inr ⟨herror, rule, hrule, hlength ▸ hsize⟩

/-- The rules of `A -> A => A` are looked at, an atom is interned, and the goal is refined.  Three
numbers are given out by then, and every call is answered. -/
theorem calls_keep_invariant_of_self_implication :
    let rule : Rule := .logical .left .implies ⟨3, .compound (.bin .implies)⟩
    let one : GoalId := ⟨1, by decide⟩
    let two : GoalId := ⟨2, by decide⟩
    ∃ p, Reached p [.zero, one, two] ∧
      (ofStore (.ofPolicy {})).calls [.load "A -> A => A", .applicableRules .zero,
          .intern (.atom "B"), .refine .zero rule] =
        .ok ([(.load "A -> A => A", .loaded none), (.applicableRules .zero, .rules (some [rule])),
          (.intern (.atom "B"), .interned (.formula ⟨4, .atomic⟩)),
          (.refine .zero rule, .refined (.expanded [one, two]))], p) ∧
      p.next.index = 3 ∧ (∀ goal ∈ p.goals, goal.id ∈ [.zero, one, two]) ∧
      ∀ c, c.Proper p → ∃ answer p', p.call c = .ok (answer, p') := by
  intro rule one two
  let made : List Call :=
    [.load "A -> A => A", .applicableRules .zero, .intern (.atom "B"), .refine .zero rule]
  have hmade : ((ofStore (.ofPolicy {})).calls made).toOption.map (·.1) =
      some [(.load "A -> A => A", .loaded none), (.applicableRules .zero, .rules (some [rule])),
        (.intern (.atom "B"), .interned (.formula ⟨4, .atomic⟩)),
        (.refine .zero rule, .refined (.expanded [one, two]))] := by
    decide +kernel
  obtain ⟨p, hcalls⟩ := exists_calls_eq_ok hmade
  have hproper : ∀ c ∈ made, ∀ q, c.Proper q := by
    simp [made, Call.Proper, Interning.Proper]
  have hreached : Reached p [.zero, one, two] :=
    (Reached.start (Store.reachable_ofPolicy {})).calls hproper hcalls
  obtain ⟨⟨hnext, -, hopen⟩, -, -, -, hanswered, -⟩ := calls_keep_invariant hreached
  refine ⟨p, hreached, hcalls, hnext, fun goal hgoal => (hopen goal hgoal).1, fun c hc => ?_⟩
  have hfew : ∀ name : RuleName, name.numSubgoals ≤ 2 := by
    rintro (_ | ⟨_ | _, _ | _ | _ | _⟩) <;> decide
  rcases hanswered c hc with hok | ⟨-, wanted, -, hsize⟩
  · exact hok
  · have hle := hfew wanted.name
    simp only [List.length_cons, List.length_nil] at hsize
    omega

end ProofState

end SequentCalculus
