import SequentCalculus.Proofs.Address
import SequentCalculus.Proofs.ProofState.Invariant
import SequentCalculus.Session

/-!
# The lines of a session

Lines are told apart by how they begin.  What is written about goals and their rules begins with a
number or with `goal`, or says that the proof is complete (`Tells`).  So it is never one of the
lines that refuse a request (`Refuses`), and it never says that there was nothing to do.

A line that shows a rule begins with the address of the rule, and both can be read off the line
(`addressLine_inj`).
-/

namespace SequentCalculus.Session

open ProofState

variable {p : ProofState} {id : GoalId} {rule : Rule} {event : Event} {c : Char}

/-! ### First characters -/

/-- The first character of a line. -/
def firstChar? : Event → Option Char
  | .line text => text.toList.head?
  | .log _ _ => none

/-- What is appended to a line does not change how it begins. -/
theorem firstChar?_append {text : String} (h : firstChar? (.line text) = some c) (rest : String) :
    firstChar? (.line (text ++ rest)) = some c := by
  have hhead : text.toList.head? = some c := h
  show (text ++ rest).toList.head? = some c
  rw [String.toList_append, List.head?_append, hhead]
  rfl

/-- A number begins with a digit. -/
theorem exists_firstChar?_toString (n : Nat) :
    ∃ c, firstChar? (.line (toString n)) = some c ∧ c.isDigit = true := by
  obtain ⟨c, cs, hdigits, hc⟩ := Text.exists_toList_toString n
  exact ⟨c, congrArg List.head? hdigits, hc⟩

/-! ### Rules under their addresses -/

/-- The line of a listing that shows a text under an address. -/
def addressLine (goal position : Nat) (shown : String) : Event :=
  .line s!"{goal}.{position}\t{shown}"

/-- The two numbers of an address end at the dot and at the tab. -/
theorem toList_addressLine (goal position : Nat) (shown : String) :
    s!"{goal}.{position}\t{shown}".toList =
      (toString goal).toList ++ '.' :: ((toString position).toList ++ '\t' :: shown.toList) := by
  show (toString goal ++ "." ++ toString position ++ "\t" ++ shown).toList = _
  simp only [String.toList_append, List.append_assoc]
  rfl

/-- **Address and text can be read off a line.** -/
theorem addressLine_inj {goal goal' position position' : Nat} {shown shown' : String}
    (h : addressLine goal position shown = addressLine goal' position' shown') :
    goal = goal' ∧ position = position' ∧ shown = shown' := by
  have htext := congrArg String.toList (Event.line.inj h)
  rw [toList_addressLine, toList_addressLine] at htext
  obtain ⟨hgoal, -, htext⟩ := Text.toString_append_cons_inj rfl rfl htext
  obtain ⟨hposition, -, htext⟩ := Text.toString_append_cons_inj rfl rfl htext
  exact ⟨hgoal, hposition, String.toList_inj.1 htext⟩

section Addresses

variable (goal position : Nat) (shown : String)

theorem exists_firstChar?_addressLine :
    ∃ c, firstChar? (addressLine goal position shown) = some c ∧ c.isDigit = true := by
  obtain ⟨c, hfirst, hdigit⟩ := exists_firstChar?_toString goal
  refine ⟨c, ?_, hdigit⟩
  exact firstChar?_append (firstChar?_append (firstChar?_append (firstChar?_append hfirst _) _) _) _

/-- A line that begins with anything but a digit is none of a listing. -/
theorem addressLine_ne_of_firstChar? (hfirst : firstChar? event = some c)
    (hdigit : c.isDigit = false) : addressLine goal position shown ≠ event := by
  rintro rfl
  obtain ⟨d, hd, hisDigit⟩ := exists_firstChar?_addressLine goal position shown
  rw [hfirst] at hd
  obtain rfl := Option.some.inj hd
  rw [hdigit] at hisDigit
  cases hisDigit

/-- A number is followed by a dot in an address, and by a colon in front of a goal. -/
theorem addressLine_ne_goalLine (s : Store) (id : GoalId) (q : Sequent) :
    addressLine goal position shown ≠ goalLine s id q := by
  intro h
  have htext := congrArg String.toList (Event.line.inj h)
  have hgoalLine : s!"{id.text}: {s.sequentText q}".toList =
      (toString id.index).toList ++ ':' :: (' ' :: (s.sequentText q).toList) := by
    show (toString id.index ++ ": " ++ s.sequentText q).toList = _
    simp only [String.toList_append, List.append_assoc]
    rfl
  rw [toList_addressLine, hgoalLine] at htext
  obtain ⟨-, hdot, -⟩ := Text.toString_append_cons_inj rfl rfl htext
  exact absurd hdot (by decide)

theorem firstChar?_stuckLine (id : GoalId) : firstChar? (stuckLine id) = some 'g' := by
  have hfirst : firstChar? (.line "goal ") = some 'g' := rfl
  exact firstChar?_append (firstChar?_append hfirst _) _

theorem addressLine_ne_stuckLine (id : GoalId) :
    addressLine goal position shown ≠ stuckLine id :=
  addressLine_ne_of_firstChar? goal position shown (firstChar?_stuckLine id) rfl

theorem addressLine_notMem_completeLines :
    addressLine goal position shown ∉ completeLines p := by
  unfold completeLines
  split
  · -- the proof is complete, which is said in words
    rw [List.mem_singleton]
    exact addressLine_ne_of_firstChar? (c := 'n') goal position shown rfl rfl
  · exact List.not_mem_nil

theorem addressLine_notMem_goalLines (ids : List GoalId) :
    addressLine goal position shown ∉ goalLines p ids := by
  intro h
  obtain ⟨id, -, hline⟩ := List.mem_filterMap.1 h
  obtain ⟨q, -, hgoal⟩ := Option.map_eq_some_iff.1 hline
  exact addressLine_ne_goalLine goal position shown p.store id q hgoal.symm

/-- **What a list of rules shows**: under each address, the text of the rule at its position. -/
theorem addressLine_mem_ruleLines_iff {s : Store} {rules : List Rule} :
    addressLine goal position shown ∈ ruleLines s id rules ↔
      id.index = goal ∧ ∃ rule, rules[position]? = some rule ∧ shown = s.ruleText rule := by
  unfold ruleLines
  rw [List.mem_mapIdx]
  constructor
  · -- the position of a rule can be read off its line
    rintro ⟨index, hindex, hline⟩
    obtain ⟨rfl, rfl, rfl⟩ := addressLine_inj (show addressLine id.index index _ = _ from hline)
    exact ⟨rfl, rules[index], List.getElem?_eq_getElem hindex, rfl⟩
  · rintro ⟨rfl, rule, hrule, rfl⟩
    obtain ⟨hindex, rfl⟩ := List.getElem?_eq_some_iff.1 hrule
    exact ⟨position, hindex, rfl⟩

end Addresses

/-! ### What is written about goals -/

/-- A line that tells about goals or their rules, or a log entry. -/
def Tells (event : Event) : Prop :=
  (∀ c, firstChar? event = some c → c.isDigit = true ∨ c = 'g') ∨
    event = .line "no more goals, proof complete"

theorem tells_of_firstChar? (hfirst : firstChar? event = some c) (hc : c.isDigit = true ∨ c = 'g') :
    Tells event := by
  refine .inl fun d hd => ?_
  rw [hfirst] at hd
  exact Option.some.inj hd ▸ hc

theorem tells_log (level : Level) (text : String) : Tells (.log level text) :=
  .inl fun _ h => nomatch h

theorem tells_goalLine (s : Store) (id : GoalId) (q : Sequent) : Tells (goalLine s id q) := by
  obtain ⟨c, hfirst, hdigit⟩ := exists_firstChar?_toString id.index
  exact tells_of_firstChar? (firstChar?_append (firstChar?_append hfirst _) _) (.inl hdigit)

theorem tells_addressLine (goal position : Nat) (shown : String) :
    Tells (addressLine goal position shown) := by
  obtain ⟨c, hfirst, hdigit⟩ := exists_firstChar?_addressLine goal position shown
  exact tells_of_firstChar? hfirst (.inl hdigit)

theorem tells_stuckLine (id : GoalId) : Tells (stuckLine id) :=
  tells_of_firstChar? (firstChar?_stuckLine id) (.inr rfl)

theorem tells_of_mem_completeLines (h : event ∈ completeLines p) : Tells event := by
  unfold completeLines at h
  split at h
  · exact .inr (List.mem_singleton.1 h)
  · cases h

theorem tells_of_mem_goalLines {ids : List GoalId} (h : event ∈ goalLines p ids) :
    Tells event := by
  obtain ⟨id, -, hline⟩ := List.mem_filterMap.1 h
  obtain ⟨q, -, rfl⟩ := Option.map_eq_some_iff.1 hline
  exact tells_goalLine p.store id q

theorem tells_of_mem_listGoals (h : event ∈ listGoals p) : Tells event := by
  rcases List.mem_append.1 h with h | h
  · exact tells_of_mem_completeLines h
  · exact tells_of_mem_goalLines h

/-- The rules of a goal are told about, and also that it has none. -/
theorem tells_of_mem_goalRules (h : event ∈ (goalRules p id).1) : Tells event := by
  unfold goalRules at h
  dsimp only at h
  split at h
  · rw [List.mem_singleton.1 h]
    exact tells_stuckLine id
  · obtain ⟨position, hposition, rfl⟩ := List.mem_mapIdx.1 h
    exact tells_addressLine id.index position _

theorem tells_of_mem_goalsWithRules {ids : List GoalId}
    (h : event ∈ (goalsWithRules p ids).1) : Tells event := by
  induction ids generalizing p with
  | nil => cases h
  | cons id ids ih =>
    -- the goal itself, its rules, and the goals after it
    rcases List.mem_append.1 h with h | h
    · rcases List.mem_append.1 h with h | h
      · exact tells_of_mem_goalLines h
      · exact tells_of_mem_goalRules h
    · exact ih h

/-- What is written about a refinement. -/
def told (id : GoalId) (rule : Rule) (refinement : Refinement) (p : ProofState) : List Event :=
  refinementEntry id rule refinement :: report p id refinement

/-- A refinement that does something is told about. -/
theorem tells_of_mem_told {refinement : Refinement} (hdone : refinement ≠ .nothingToDo)
    (h : event ∈ told id rule refinement p) : Tells event := by
  rcases List.mem_cons.1 h with rfl | h
  · -- the entry is no line, whatever the refinement is
    cases refinement <;> exact tells_log _ _
  rcases List.mem_append.1 h with h | h
  · cases refinement with
    | nothingToDo => exact absurd rfl hdone
    | closed =>
      have hfirst : firstChar? (.line "goal ") = some 'g' := rfl
      rw [List.mem_singleton.1 h]
      exact tells_of_firstChar? (firstChar?_append (firstChar?_append hfirst _) _) (.inr rfl)
    | expanded children => exact tells_of_mem_goalLines h
  · exact tells_of_mem_completeLines h

/-! ### Refusals -/

/-- The lines that refuse a request. -/
def Refuses (event : Event) : Prop :=
  event = .line "no such goal" ∨ event = .line "no such rule" ∨
    ∃ rest, event = .line ("invalid address" ++ rest)

/-- What is no address is refused by the text of the error. -/
theorem refuses_malformedAddress (text : String) :
    Refuses (.line (InputError.malformedAddress text).message) := by
  refine .inr (.inr ⟨": " ++ (text ++ " (expected <goal>.<rule>)"), congrArg Event.line ?_⟩)
  rw [← String.append_assoc, ← String.append_assoc]
  rfl

/-- A line that begins with some other character tells nothing about goals, if it is not the one
that says that the proof is complete. -/
theorem Tells.ne_line {text : String} (h : Tells event) (hfirst : firstChar? (.line text) = some c)
    (hdigit : c.isDigit = false) (hgoal : c ≠ 'g')
    (hcomplete : text ≠ "no more goals, proof complete") : event ≠ .line text := by
  rintro rfl
  rcases h with h | h
  · rcases h c hfirst with hc | hc
    · rw [hdigit] at hc
      cases hc
    · exact hgoal hc
  · exact hcomplete (Event.line.inj h)

/-- **What tells about goals refuses nothing.** -/
theorem Tells.not_refuses (h : Tells event) : ¬Refuses event := by
  rintro (hevent | hevent | ⟨rest, hevent⟩)
  · exact h.ne_line (c := 'n') rfl rfl (by decide) (by decide) hevent
  · exact h.ne_line (c := 'n') rfl rfl (by decide) (by decide) hevent
  · -- how the line goes on is not known, but it does not begin like the others
    have hfirst : firstChar? (.line ("invalid address" ++ rest)) = some 'i' :=
      firstChar?_append rfl rest
    refine h.ne_line hfirst rfl (by decide) (fun hcomplete => ?_) hevent
    rw [hcomplete] at hfirst
    cases hfirst

/-! ### Nothing to do -/

theorem ne_nothing_of_firstChar? (hfirst : firstChar? event = some c) (hc : c ≠ 'n') :
    event ≠ .line "nothing to do" := by
  rintro rfl
  exact hc (Option.some.inj hfirst).symm

/-- The line that says that the proof is complete begins like the one that says that there was
nothing to do, but they are different lines. -/
theorem Tells.ne_nothing (h : Tells event) : event ≠ .line "nothing to do" :=
  h.ne_line (c := 'n') rfl rfl (by decide) (by decide)

theorem Refuses.ne_nothing (h : Refuses event) : event ≠ .line "nothing to do" := by
  rcases h with rfl | rfl | ⟨rest, rfl⟩
  · decide
  · decide
  · exact ne_nothing_of_firstChar? (firstChar?_append rfl rest) (by decide)

/-- **Where everything that is written tells or refuses**, no line says that there was nothing to
do. -/
theorem nothing_notMem {events : List Event}
    (h : ∀ event ∈ events, Tells event ∨ Refuses event) : .line "nothing to do" ∉ events := by
  intro hmem
  rcases h _ hmem with htells | hrefuses
  · exact htells.ne_nothing rfl
  · exact hrefuses.ne_nothing rfl

theorem nothing_notMem_goals (p : ProofState) (argument : List Char) :
    .line "nothing to do" ∉ goals p argument := by
  refine nothing_notMem fun event hevent => ?_
  unfold goals at hevent
  split at hevent
  · exact .inl (tells_of_mem_listGoals hevent)
  -- a goal is named: it is shown, or there is none
  · split at hevent
    · exact .inl (tells_of_mem_goalLines hevent)
    · exact .inr (.inl (List.mem_singleton.1 hevent))

theorem nothing_notMem_rules (p : ProofState) (argument : List Char) :
    .line "nothing to do" ∉ (rules p argument).1 := by
  refine nothing_notMem fun event hevent => ?_
  unfold rules at hevent
  split at hevent
  · rcases List.mem_append.1 hevent with hevent | hevent
    · exact .inl (tells_of_mem_completeLines hevent)
    · exact .inl (tells_of_mem_goalsWithRules hevent)
  · split at hevent
    · exact .inl (tells_of_mem_goalRules hevent)
    · exact .inr (.inl (List.mem_singleton.1 hevent))

/-- A text that cannot be read is neither told about nor refused, but named as a whole. -/
theorem nothing_notMem_load (p : ProofState) (text : List Char) :
    .line "nothing to do" ∉ (load p text).1 := by
  unfold load
  split
  · refine nothing_notMem fun event hevent => .inl ?_
    rcases List.mem_cons.1 hevent with rfl | hevent
    · exact tells_log _ _
    · exact tells_of_mem_listGoals hevent
  · -- there is one error only
    rename_i error herror
    have hmessage : error.message = "invalid syntax: " ++ String.ofList text := by
      rw [SequentExpr.read_eq_error (load_eq_error_iff.1 herror)]
      rfl
    rw [List.mem_singleton, hmessage]
    exact (ne_nothing_of_firstChar? (firstChar?_append rfl _) (by decide)).symm

end SequentCalculus.Session
