import SequentCalculus.Proofs.ProofState.Visible
import SequentCalculus.Proofs.Session.Auto
import SequentCalculus.Proofs.Session.Lines

/-!
# Listing rules and refining by them

`:rules` lists the applicable rules of every open goal, each under its address, and `:refine`
applies the rule at an address.  Both go by the same rules, those that a goal offers (`Offers`):

* a line of the listing shows the rule that is offered at its address
  (`addressLine_mem_rules_iff`);
* `:refine` applies the rule that is offered at the address (`refine_of_offers`), and if there is
  none it refuses and changes nothing that can be seen (`exists_refuses`).

So a rule that is looked up is never found to do nothing (`nothing_notMem_execute`).
-/

namespace SequentCalculus.Session

open ProofState

variable {p p' now : ProofState} {id : GoalId} {rule : Rule} {event : Event}

/-! ### Offers -/

/-- A rule stands at a position among the applicable rules of an open goal. -/
def Offers (p : ProofState) (id : GoalId) (position : Nat) (rule : Rule) : Prop :=
  ∃ goal ∈ p.goals, goal.id = id ∧ goal.sequent.applicableRules[position]? = some rule

/-- What a goal offers is found at the address, remembered or not. -/
theorem offers_iff (hp : p.Sound) {position : Nat} :
    Offers p id position rule ↔ (p.applicableRules id).1.bind (·[position]?) = some rule := by
  rw [Option.bind_eq_some_iff]
  constructor
  · rintro ⟨goal, hgoal, hid, hrule⟩
    exact ⟨_, hp.fst_applicableRules_eq_some_iff.2 ⟨goal, hgoal, hid, rfl⟩, hrule⟩
  · rintro ⟨rules, hrules, hrule⟩
    obtain ⟨goal, hgoal, hid, rfl⟩ := hp.fst_applicableRules_eq_some_iff.1 hrules
    exact ⟨goal, hgoal, hid, hrule⟩

theorem Offers.of_forget_eq {position : Nat} (h : Offers p id position rule)
    (hsame : p.forget = p'.forget) : Offers p' id position rule := by
  obtain ⟨goal, hgoal, hid, hrule⟩ := h
  have hmem : (goal.id, goal.sequent) ∈ p.goals.map fun goal => (goal.id, goal.sequent) :=
    List.mem_map_of_mem hgoal
  rw [goals_eq_of_forget_eq hsame] at hmem
  obtain ⟨goal', hgoal', hpair⟩ := List.mem_map.1 hmem
  obtain ⟨hid', hsequent⟩ := Prod.mk.inj hpair
  exact ⟨goal', hgoal', hid'.trans hid, hsequent ▸ hrule⟩

theorem offers_congr {position : Nat} (hsame : p.forget = p'.forget) :
    Offers p id position rule ↔ Offers p' id position rule :=
  ⟨fun h => h.of_forget_eq hsame, fun h => h.of_forget_eq hsame.symm⟩

/-- A rule that is offered does something, if there are enough numbers for its subgoals. -/
theorem Offers.refine (hp : p.Sound) {position : Nat} (h : Offers p id position rule) :
    (∃ refinement p', p.refine id rule = .ok (refinement, p') ∧ refinement ≠ .nothingToDo) ∨
      (p.refine id rule = .error .idTooLarge ∧
        UInt32.size ≤ p.next.index + rule.name.numSubgoals) := by
  obtain ⟨goal, hgoal, hid, hposition⟩ := h
  have hrule : rule ∈ goal.sequent.applicableRules := List.mem_of_getElem? hposition
  rcases hp.refines_or_outOfNumbers id rule with
    ⟨refinement, p', hok, -⟩ | ⟨herror, other, hother, premises, hinfers, hsize⟩
  · refine .inl ⟨refinement, p', hok, ?_⟩
    rintro rfl
    exact hp.refine_ne_nothingToDo hgoal hid hrule hok
  · exact .inr ⟨herror, hinfers.length_eq ▸ hsize⟩

theorem Offers.refineBy (hp : p.Sound) {position : Nat} (h : Offers p id position rule) :
    (∃ refinement p', p.refine id rule = .ok (refinement, p') ∧ refinement ≠ .nothingToDo ∧
        Session.refineBy p id rule = .ok (refinement, told id rule refinement p', p')) ∨
      (p.refine id rule = .error .idTooLarge ∧
        UInt32.size ≤ p.next.index + rule.name.numSubgoals ∧
        Session.refineBy p id rule = .error .idTooLarge) := by
  unfold Session.refineBy
  rcases h.refine hp with ⟨refinement, p', hok, hdone⟩ | ⟨herror, hsize⟩
  · exact .inl ⟨refinement, p', hok, hdone, by rw [hok]; rfl⟩
  · exact .inr ⟨herror, hsize, by rw [herror]⟩

/-! ### The listing -/

theorem addressLine_mem_goalRules_iff (hp : p.Sound) {goal position : Nat} {shown : String} :
    addressLine goal position shown ∈ (goalRules p id).1 ↔
      id.index = goal ∧ ∃ rule, Offers p id position rule ∧ shown = p.store.ruleText rule := by
  have hstore : (p.applicableRules id).2.store = p.store := by
    rw [snd_applicableRules]
    rfl
  have hposition : ∀ rule, Offers p id position rule ↔
      ((p.applicableRules id).1.getD [])[position]? = some rule := by
    intro rule
    rw [offers_iff hp]
    cases (p.applicableRules id).1 <;> simp
  simp only [hposition, ← hstore, ← addressLine_mem_ruleLines_iff]
  unfold goalRules
  dsimp only
  split
  · rename_i hnone
    simp [hnone, ruleLines, addressLine_ne_stuckLine]
  · rfl

@[simp] theorem forget_snd_goalRules (p : ProofState) (id : GoalId) :
    (goalRules p id).2.forget = p.forget := by
  unfold goalRules
  dsimp only
  split <;> exact forget_snd_applicableRules p id

theorem sound_snd_goalRules (hp : p.Sound) (id : GoalId) : (goalRules p id).2.Sound :=
  ((course_goalRules p id).sound hp).1

@[simp] theorem forget_snd_goalsWithRules (p : ProofState) (ids : List GoalId) :
    (goalsWithRules p ids).2.forget = p.forget := by
  induction ids generalizing p with
  | nil => rfl
  | cons id ids ih => exact (ih _).trans (forget_snd_goalRules p id)

/-- What is remembered while the first goals are shown makes no difference to the others. -/
theorem addressLine_mem_goalsWithRules_iff (hp : p.Sound) {ids : List GoalId}
    {goal position : Nat} {shown : String} :
    addressLine goal position shown ∈ (goalsWithRules p ids).1 ↔ ∃ id ∈ ids, id.index = goal ∧
      ∃ rule, Offers p id position rule ∧ shown = p.store.ruleText rule := by
  induction ids generalizing p with
  | nil => simp [goalsWithRules]
  | cons id ids ih =>
    have hstore := store_eq_of_forget_eq (forget_snd_goalRules p id)
    have hothers := ih (sound_snd_goalRules hp id)
    simp only [hstore, offers_congr (forget_snd_goalRules p id)] at hothers
    rw [goalsWithRules]
    simp only [List.mem_append, addressLine_notMem_goalLines, false_or, hothers,
      addressLine_mem_goalRules_iff hp, List.mem_cons, exists_eq_or_imp]

/-- **The listing** shows the rules that are offered under their addresses. -/
theorem addressLine_mem_rules_iff (hp : p.Sound) {goal position : Nat} {shown : String} :
    addressLine goal position shown ∈ (rules p []).1 ↔ ∃ id rule, id.index = goal ∧
      Offers p id position rule ∧ shown = p.store.ruleText rule := by
  show _ ∈ completeLines p ++ (goalsWithRules p p.ids).1 ↔ _
  rw [List.mem_append, addressLine_mem_goalsWithRules_iff hp]
  simp only [addressLine_notMem_completeLines, false_or]
  constructor
  · rintro ⟨id, -, hid, rule, hoffers, hshown⟩
    exact ⟨id, rule, hid, hoffers, hshown⟩
  · rintro ⟨id, rule, hid, hoffers, hshown⟩
    have hopen : id ∈ p.ids := by
      obtain ⟨goal, hgoal, rfl, -⟩ := hoffers
      exact List.mem_map_of_mem hgoal
    exact ⟨id, hopen, hid, rule, hoffers, hshown⟩

/-! ### Requests -/

theorem goal?_isNone_of_offers (hp : p.Sound) {position : Nat} (h : Offers p id position rule) :
    (p.goal? id).isNone = false := by
  obtain ⟨goal, hgoal, hid, -⟩ := h
  rw [goal?, hp.find?_eq_some_iff.2 ⟨hgoal, hid⟩]
  rfl

/-- What is remembered while a rule is looked up makes no difference to the refinement. -/
theorem refineBy_remember (p : ProofState) (id : GoalId) (rule : Rule) :
    refineBy (p.remember id) id rule = refineBy p id rule := by
  unfold refineBy
  rw [refine_remember]

/-- **The rule that is offered at an address is applied.** -/
theorem refine_of_offers (hp : p.Sound) {argument : List Char} {a : Address}
    (hread : Address.read (String.ofList argument) = .ok a)
    (hoffers : Offers p a.goal a.rule rule) :
    refine p argument = (refineBy p a.goal rule).map (·.2) := by
  have hrule : p.ruleAt a = (some rule, p.remember a.goal) :=
    Prod.ext ((offers_iff hp).1 hoffers) (snd_applicableRules p a.goal)
  have hopen := goal?_isNone_of_offers hp hoffers
  unfold refine
  simp only [hread, hopen, hrule, refineBy_remember, Bool.false_eq_true, if_false]

/-- A request is refused if no rule is offered at the address, or if it is no address. -/
theorem exists_refuses (hp : p.Sound) {argument : List Char}
    (hnone : ∀ a, Address.read (String.ofList argument) = .ok a →
      ∀ rule, ¬Offers p a.goal a.rule rule) :
    ∃ event p', refine p argument = .ok ([event], p') ∧ Refuses event ∧ p'.forget = p.forget := by
  unfold refine
  cases hread : Address.read (String.ofList argument) with
  | error error =>
    obtain rfl := Address.read_eq_error hread
    exact ⟨_, p, rfl, refuses_malformedAddress _, rfl⟩
  | ok a =>
    have hrule : p.ruleAt a = (none, p.remember a.goal) := by
      refine Prod.ext (Option.eq_none_iff_forall_ne_some.2 fun rule hrule => ?_)
        (snd_applicableRules p a.goal)
      exact hnone a hread rule ((offers_iff hp).2 hrule)
    dsimp only
    split
    · exact ⟨_, p, rfl, .inl rfl, rfl⟩
    · rw [hrule]
      exact ⟨_, _, rfl, .inr (.inl rfl), forget_remember p a.goal⟩

/-! ### Nothing to do -/

theorem tells_of_mem_auto (hp : p.Sound) {outcome : Outcome} (h : auto p = .ok outcome) :
    ∀ event ∈ outcome.1, Tells event := by
  fun_induction auto p generalizing outcome with
  | case1 p hfirst =>
    obtain rfl := Except.ok.inj h
    exact List.forall_mem_nil _
  | case2 p id hfirst hrules =>
    obtain rfl := Except.ok.inj h
    exact List.forall_mem_singleton.2 (tells_stuckLine id)
  | case3 => cases h
  | case4 p id hfirst rule others hrules next hrefine =>
    exact absurd hrefine (refine_first_ne_nothingToDo hp hfirst hrules next)
  | case5 p id hfirst rule others hrules refinement next hrefine written hdone hlt =>
    rename_i ih
    have hstep := autoStep_applicableRules hp hfirst hrules
    rw [hrefine] at hstep
    cases hstep with
    | granted _ hsound =>
      cases hauto : auto next with
      | error fault =>
        rw [hauto] at h
        cases h
      | ok rest =>
        rw [hauto] at h
        obtain rfl := Except.ok.inj h
        exact List.forall_mem_append.2 ⟨fun _ => tells_of_mem_told hdone, ih hsound hauto⟩

theorem nothing_notMem_refine (hp : p.Sound) {argument : List Char} {outcome : Outcome}
    (h : refine p argument = .ok outcome) : .line "nothing to do" ∉ outcome.1 := by
  by_cases hoffers : ∃ a, Address.read (String.ofList argument) = .ok a ∧
      ∃ rule, Offers p a.goal a.rule rule
  · obtain ⟨a, hread, rule, hoffers⟩ := hoffers
    rcases hoffers.refineBy hp with ⟨refinement, next, -, hdone, hrefine⟩ | ⟨-, -, hfault⟩
    · rw [refine_of_offers hp hread hoffers, hrefine] at h
      cases h
      exact nothing_notMem fun event hevent => .inl (tells_of_mem_told hdone hevent)
    · rw [refine_of_offers hp hread hoffers, hfault] at h
      cases h
  · obtain ⟨event, next, hrefine, hrefuses, -⟩ := exists_refuses hp fun a hread rule h =>
      hoffers ⟨a, hread, rule, h⟩
    rw [hrefine] at h
    cases h
    exact nothing_notMem (List.forall_mem_singleton.2 (.inr hrefuses))

theorem nothing_notMem_perform (hp : p.Sound) {command : Command} {outcome : Outcome}
    (h : perform p command = .ok outcome) : .line "nothing to do" ∉ outcome.1 := by
  cases command with
  | load text =>
    cases h
    exact nothing_notMem_load p text
  | goals argument =>
    cases h
    exact nothing_notMem_goals p argument
  | rules argument =>
    cases h
    exact nothing_notMem_rules p argument
  | refine argument => exact nothing_notMem_refine hp h
  | auto => exact nothing_notMem fun event hevent => .inl (tells_of_mem_auto hp h event hevent)
  | clear =>
    cases h
    dsimp only
    decide
  | help =>
    cases h
    dsimp only
    decide
  | quit =>
    cases h
    exact List.not_mem_nil
  | unknown word =>
    cases h
    have hfirst : firstChar? (.line s!"unknown command {word}, try :help") = some 'u' :=
      firstChar?_append (firstChar?_append rfl _) _
    rw [List.mem_singleton]
    exact (ne_nothing_of_firstChar? hfirst (by decide)).symm

/-- What executing a line writes: nothing, or a log entry and what the command writes. -/
theorem execute_eq_ok {line : String} {reply : Reply} (h : execute p line = .ok reply) :
    reply.events = [] ∨ ∃ command outcome text, perform p command = .ok outcome ∧
      reply.events = .log .debug text :: outcome.1 := by
  unfold execute at h
  split at h
  · cases h
    exact .inl rfl
  · cases h
    exact .inl rfl
  · dsimp only at h
    split at h
    · cases h
    · rename_i events next hperform
      cases h
      exact .inr ⟨_, _, _, hperform, rfl⟩

/-- **In no session is there a refinement that comes to nothing.** -/
theorem nothing_notMem_execute (hp : p.Sound) {line : String} {reply : Reply}
    (h : execute p line = .ok reply) : .line "nothing to do" ∉ reply.events := by
  rcases execute_eq_ok h with hnil | ⟨command, outcome, text, hperform, hevents⟩
  · rw [hnil]
    exact List.not_mem_nil
  · rw [hevents, List.mem_cons]
    rintro (hlog | hmem)
    · cases hlog
    · exact nothing_notMem_perform hp hperform hmem

/-! ### Command lines -/

/-- A line asks for the rule at an address. -/
def Asks (line : String) (a : Address) : Prop :=
  ∃ argument, Command.ofLine (Text.trim line.toList) = .refine argument ∧
    Address.read (String.ofList argument) = .ok a

theorem ofLine_refine (text : String) :
    Command.ofLine (Text.trim (":refine " ++ text).toList) = .refine (Text.trim text.toList) := by
  let word := [':', 'r', 'e', 'f', 'i', 'n', 'e']
  have hsplit : Text.splitWord (Text.trim (word ++ ' ' :: text.toList)) =
      (word, Text.trim text.toList) :=
    Text.splitWord_trim_append (by decide) (by decide)
  have hline : (":refine " ++ text).toList = word ++ ' ' :: text.toList := by
    rw [String.toList_append]
    rfl
  rw [hline]
  unfold Command.ofLine
  rw [hsplit]
  rfl

theorem word_of_refine {cs argument : List Char} (h : Command.ofLine cs = .refine argument) :
    (Text.splitWord cs).1 = [':', 'r', 'e', 'f', 'i', 'n', 'e'] := by
  unfold Command.ofLine at h
  dsimp only at h
  split at h <;> cases h
  rename_i hword
  simpa using congrArg String.toList hword

theorem execute_refine {line : String} {argument : List Char}
    (h : Command.ofLine (Text.trim line.toList) = .refine argument) :
    ∃ text, execute p line =
      (refine p argument).map fun outcome => ⟨.log .debug text :: outcome.1, outcome.2, true⟩ := by
  refine ⟨s!"command: {String.ofList (Text.trim line.toList)}", ?_⟩
  unfold execute
  split
  · rename_i hnil
    rw [hnil] at h
    cases h
  · rename_i comment hcomment
    have hword := word_of_refine h
    rw [hcomment, Text.splitWord, List.takeWhile_cons_of_pos (by decide)] at hword
    exact absurd (List.cons.inj hword).1 (by decide)
  · dsimp only
    rw [h, perform]
    cases refine p argument <;> rfl

theorem execute_rules (p : ProofState) : ∃ text, execute p ":rules" =
    .ok ⟨.log .debug text :: (rules p []).1, (rules p []).2, true⟩ :=
  ⟨_, rfl⟩

/-! ### Agreement -/

/-- A line is not refused. -/
def Accepts (p : ProofState) (line : String) : Prop :=
  ∀ reply, execute p line = .ok reply → ∀ event ∈ reply.events, ¬Refuses event

/-- A line applies a rule to a goal: what comes of the refinement is told, and becomes the state.  A
refinement for which there are not enough numbers ends the session. -/
inductive Applies (p : ProofState) (line : String) (id : GoalId) (rule : Rule) : Prop
  | done {refinement : Refinement} {reply : Reply} {entry : Event}
      (hrefine : p.refine id rule = .ok (refinement, reply.state))
      (hdone : refinement ≠ .nothingToDo) (hexecute : execute p line = .ok reply)
      (hevents : reply.events = entry :: told id rule refinement reply.state)
  | outOfNumbers (hrefine : p.refine id rule = .error .idTooLarge)
      (hsize : 2 ^ 32 ≤ p.next.index + rule.name.numSubgoals)
      (hexecute : execute p line = .error .idTooLarge)

/-- A request for a rule that is offered is granted. -/
theorem applies_of_offers (hp : p.Sound) {line : String} {a : Address} (hasks : Asks line a)
    (hoffers : Offers p a.goal a.rule rule) :
    Applies p line a.goal rule ∧ Accepts p line := by
  obtain ⟨argument, hline, hread⟩ := hasks
  obtain ⟨text, hexecute⟩ := execute_refine (p := p) hline
  rw [refine_of_offers hp hread hoffers] at hexecute
  rcases hoffers.refineBy hp with ⟨refinement, next, hok, hdone, htold⟩ | ⟨herror, hsize, hfault⟩
  · rw [htold] at hexecute
    refine ⟨.done hok hdone hexecute rfl, fun reply hreply => ?_⟩
    rw [hexecute] at hreply
    cases hreply
    refine List.forall_mem_cons.2 ⟨(tells_log _ _).not_refuses, fun event hevent => ?_⟩
    exact (tells_of_mem_told hdone hevent).not_refuses
  · rw [hfault] at hexecute
    refine ⟨.outOfNumbers herror hsize hexecute, fun reply hreply => ?_⟩
    rw [hexecute] at hreply
    cases hreply

theorem exists_execute_of_not_offers (hp : p.Sound) {line : String} {argument : List Char}
    (hline : Command.ofLine (Text.trim line.toList) = .refine argument)
    (hnone : ∀ a, Asks line a → ∀ rule, ¬Offers p a.goal a.rule rule) :
    ∃ reply, execute p line = .ok reply ∧ reply.state.forget = p.forget ∧ ¬Accepts p line := by
  obtain ⟨text, hexecute⟩ := execute_refine (p := p) hline
  obtain ⟨event, next, hrefine, hrefuses, hsame⟩ := exists_refuses hp fun a hread =>
    hnone a ⟨argument, hline, hread⟩
  rw [hrefine] at hexecute
  refine ⟨_, hexecute, hsame, fun haccepts => ?_⟩
  exact haccepts _ hexecute event (by simp) hrefuses

/-- **When a request is accepted**: exactly if it asks for a rule that is offered. -/
theorem accepts_iff (hp : p.Sound) {line : String} {argument : List Char}
    (hline : Command.ofLine (Text.trim line.toList) = .refine argument) :
    Accepts p line ↔ ∃ a rule, Asks line a ∧ Offers p a.goal a.rule rule := by
  constructor
  · intro haccepts
    by_contra hnone
    obtain ⟨-, -, -, hrefused⟩ := exists_execute_of_not_offers hp hline fun a hasks rule hoffers =>
      hnone ⟨a, rule, hasks, hoffers⟩
    exact hrefused haccepts
  · rintro ⟨a, rule, hasks, hoffers⟩
    exact (applies_of_offers hp hasks hoffers).2

theorem ofLine_refine_numbers (goal position : Nat) :
    Command.ofLine (Text.trim s!":refine {goal}.{position}".toList) =
      .refine s!"{goal}.{position}".toList := by
  have hline : s!":refine {goal}.{position}" = ":refine " ++ s!"{goal}.{position}" := by
    show ":refine " ++ toString goal ++ "." ++ toString position =
      ":refine " ++ (toString goal ++ "." ++ toString position)
    simp only [String.append_assoc]
  rw [hline, ofLine_refine, Address.trim_numbers]

theorem asks_numbers_iff {goal position : Nat} {a : Address} :
    Asks s!":refine {goal}.{position}" a ↔ a.goal.index = goal ∧ a.rule = position := by
  unfold Asks
  rw [ofLine_refine_numbers]
  simp only [Command.refine.injEq, exists_eq_left', String.ofList_toList]
  exact Address.read_numbers_eq_ok_iff

/-- The numbers in a listing are those of addresses, in a store of a size that can be. -/
theorem Offers.position_lt (hp : p.Sound) {position : Nat} (h : Offers p id position rule)
    (hsize : p.store.size ≤ 2 ^ 32) : position < UInt64.size := by
  obtain ⟨goal, hgoal, -, hrule⟩ := h
  obtain ⟨hlt, -⟩ := List.getElem?_eq_some_iff.1 hrule
  have hlength := (hp.owns goal hgoal).length_applicableRules_le
  have hword : 8 * 2 ^ 32 + 1 < UInt64.size := by decide
  omega

/-- The states in which a listing is of use: what is remembered makes no difference to it. -/
theorem addressLine_mem_rules_iff_of_forget_eq (hp : p.Sound) (hsame : now.forget = p.forget)
    {a : Address} {shown : String} : addressLine a.goal.index a.rule shown ∈ (rules p []).1 ↔
      ∃ rule, Offers now a.goal a.rule rule ∧ shown = now.store.ruleText rule := by
  rw [addressLine_mem_rules_iff hp, store_eq_of_forget_eq hsame]
  constructor
  · rintro ⟨id, rule, hid, hoffers, hshown⟩
    obtain rfl := GoalId.index_inj hid
    exact ⟨rule, hoffers.of_forget_eq hsame.symm, hshown⟩
  · rintro ⟨rule, hoffers, hshown⟩
    exact ⟨a.goal, rule, rfl, hoffers.of_forget_eq hsame, hshown⟩

theorem sound_forget_rules (hp : p.Sound) :
    (rules p []).2.Sound ∧ (rules p []).2.forget = p.forget :=
  ⟨((course_rules p []).sound hp).1, forget_snd_goalsWithRules p p.ids⟩

/-- **What is listed is what is accepted.**  At any time in a session `:rules` lists rules, and
before it as well as after it a request is accepted if and only if its address is listed.  (In a
store of more than 2 ^ 32 formulas positions might be too large for an address.)  A request for a
listed address, however it is spelled, applies the rule that is shown there; any other request
leaves the store and the goals with their numbers as they are.  No line says that there was nothing
to do, since a rule that is looked up does something, also in the states that `:auto` passes
through. -/
theorem rules_list_what_refine_accepts (hp : Reachable p) :
    ∃ listing, execute p ":rules" = .ok listing ∧
      (∀ now, now = p ∨ now = listing.state →
        (∀ goal position, position < 2 ^ 64 ∨ p.store.size ≤ 2 ^ 32 →
          ((∃ shown, addressLine goal position shown ∈ listing.events) ↔
            Accepts now s!":refine {goal}.{position}")) ∧
        (∀ line a shown, Asks line a → addressLine a.goal.index a.rule shown ∈ listing.events →
          ∃ goal ∈ now.goals, ∃ rule, goal.id = a.goal ∧
            goal.sequent.applicableRules[a.rule]? = some rule ∧
            shown = now.store.ruleText rule ∧ Applies now line a.goal rule) ∧
        ∀ line argument, Command.ofLine (Text.trim line.toList) = .refine argument →
          (∀ a shown, Asks line a → addressLine a.goal.index a.rule shown ∉ listing.events) →
          ∃ reply, execute now line = .ok reply ∧ reply.state.store = now.store ∧
            reply.state.next = now.next ∧
            reply.state.goals.map (fun goal => (goal.id, goal.sequent)) =
              now.goals.map (fun goal => (goal.id, goal.sequent))) ∧
      (∀ a : Address, Asks s!":refine {a.goal.index}.{a.rule}" a) ∧
      (∀ line reply, execute p line = .ok reply → .line "nothing to do" ∉ reply.events) ∧
      ∀ refinements next, Course p refinements next →
        ∀ id rules, (next.applicableRules id).1 = some rules → ∀ rule ∈ rules, ∀ p',
          next.refine id rule ≠ .ok (.nothingToDo, p') := by
  obtain ⟨-, hsound⟩ := hp.sound
  obtain ⟨text, hlisting⟩ := execute_rules p
  have hmem : ∀ goal position shown,
      addressLine goal position shown ∈ Event.log .debug text :: (rules p []).1 ↔
        addressLine goal position shown ∈ (rules p []).1 := by
    simp [addressLine]
  refine ⟨_, hlisting, fun now hnow => ?_, fun a => asks_numbers_iff.2 ⟨rfl, rfl⟩,
    fun line reply => nothing_notMem_execute hsound,
    fun refinements next hcourse id rules hrules rule hrule p' => ?_⟩
  case refine_2 =>
    have hnext := (hcourse.sound hsound).1
    obtain ⟨goal, hgoal, hid, rfl⟩ := hnext.fst_applicableRules_eq_some_iff.1 hrules
    exact hnext.refine_ne_nothingToDo hgoal hid hrule
  simp only [hmem]
  obtain ⟨hsound', hsame⟩ : now.Sound ∧ now.forget = p.forget := by
    rcases hnow with rfl | rfl
    · exact ⟨hsound, rfl⟩
    · exact sound_forget_rules hsound
  refine ⟨fun goal position hposition => ?_, fun line a shown hasks hlisted => ?_,
    fun line argument hline hnone => ?_⟩
  · rw [accepts_iff hsound' (ofLine_refine_numbers goal position)]
    constructor
    · rintro ⟨shown, hlisted⟩
      obtain ⟨id, rule, hid, hoffers, -⟩ := (addressLine_mem_rules_iff hsound).1 hlisted
      have hlt : position < UInt64.size := by
        rcases hposition with hlt | hsize
        · exact hlt
        · exact hoffers.position_lt hsound hsize
      exact ⟨⟨id, position, hlt⟩, rule, asks_numbers_iff.2 ⟨hid, rfl⟩,
        hoffers.of_forget_eq hsame.symm⟩
    · rintro ⟨a, rule, hasks, hoffers⟩
      obtain ⟨rfl, rfl⟩ := asks_numbers_iff.1 hasks
      exact ⟨_, (addressLine_mem_rules_iff_of_forget_eq hsound hsame).2 ⟨rule, hoffers, rfl⟩⟩
  · obtain ⟨rule, hoffers, hshown⟩ :=
      (addressLine_mem_rules_iff_of_forget_eq hsound hsame).1 hlisted
    have happlies := (applies_of_offers hsound' hasks hoffers).1
    obtain ⟨goal, hgoal, hid, hrule⟩ := hoffers
    exact ⟨goal, hgoal, rule, hid, hrule, hshown, happlies⟩
  · obtain ⟨reply, hreply, hkept, -⟩ := exists_execute_of_not_offers hsound' hline
      fun a hasks rule hoffers => hnone a _ hasks
        ((addressLine_mem_rules_iff_of_forget_eq hsound hsame).2 ⟨rule, hoffers, rfl⟩)
    exact ⟨reply, hreply, store_eq_of_forget_eq hkept, next_eq_of_forget_eq hkept,
      goals_eq_of_forget_eq hkept⟩

/-- Two rules are listed for `A | B => A & B`.  The second one is asked for by its address, and
applied. -/
theorem rules_list_what_refine_accepts_of_disjunction :
    let start := ofStore (.ofPolicy {})
    ∃ loaded listing, execute start ":load A | B => A & B" = .ok loaded ∧
      execute loaded.state ":rules" = .ok listing ∧
      listing.events.filterMap Event.outputLine? =
        ["0: (A | B) => (A & B)", "0.0\tRIGHT_AND (A & B)", "0.1\tLEFT_OR (A | B)"] ∧
      Accepts listing.state ":refine 0.1" ∧ ∃ rule,
        listing.state.store.ruleText rule = "LEFT_OR (A | B)" ∧
        Applies listing.state ":refine 0.1" .zero rule := by
  intro start
  have hlines : ((execute start ":load A | B => A & B").toOption.bind fun loaded =>
      (execute loaded.state ":rules").toOption.map fun listing =>
        listing.events.filterMap Event.outputLine?) =
      some ["0: (A | B) => (A & B)", "0.0\tRIGHT_AND (A & B)", "0.1\tLEFT_OR (A | B)"] := by
    decide +kernel
  cases hload : execute start ":load A | B => A & B" with
  | error fault =>
    rw [hload] at hlines
    cases hlines
  | ok loaded =>
    have hp : Reachable loaded.state := .execute (.start (Store.reachable_ofPolicy {})) hload
    obtain ⟨listing, hlisting, hagree, hasks, -⟩ := rules_list_what_refine_accepts hp
    obtain ⟨haccepts, happlies, -⟩ := hagree listing.state (.inr rfl)
    have hshown : listing.events.filterMap Event.outputLine? =
        ["0: (A | B) => (A & B)", "0.0\tRIGHT_AND (A & B)", "0.1\tLEFT_OR (A | B)"] := by
      simp only [hload, Except.toOption, Option.bind_some, hlisting] at hlines
      exact Option.some.inj hlines
    have hline : addressLine 0 1 "LEFT_OR (A | B)" ∈ listing.events := by
      have hmem : "0.1\tLEFT_OR (A | B)" ∈ listing.events.filterMap Event.outputLine? := by
        simp [hshown]
      obtain ⟨event, hevent, htext⟩ := List.mem_filterMap.1 hmem
      cases event with
      | line text =>
        obtain rfl := Option.some.inj htext
        exact hevent
      | log level text => cases htext
    obtain ⟨goal, -, rule, -, -, hrule, happlied⟩ :=
      happlies _ ⟨.zero, 1, by decide⟩ _ (hasks _) hline
    exact ⟨loaded, listing, rfl, hlisting, hshown, (haccepts 0 1 (.inl (by decide))).1 ⟨_, hline⟩,
      rule, hrule.symm, happlied⟩

end SequentCalculus.Session
