import SequentCalculus.Proofs.Reading.Blank
import SequentCalculus.Proofs.Search.Verdict
import SequentCalculus.Proofs.Session.Reachable
import Mathlib.Algebra.Group.Nat.Defs

/-!
# Automatic refinement

`:auto` refines the first goal by its first rule, over and over.  The premises of the rule are put
behind the other goals, so that it works breadth first, whereas a search works depth first and
chooses its rules in another order.  The two agree nonetheless, because neither can lose or gain
anything: `:auto` makes a course of refinements, and comes to its end without open goals or at a
goal that refutes the loaded sequent.

How many goals come up is counted by `autoCreated`, without regard to goal numbers.  `auto_run` says
that `:auto` comes up with as many, and that it only fails if there are not enough numbers for them.
-/

namespace SequentCalculus.Session

open ProofState

variable {p p' : ProofState}

/-! ### Goals that come up -/

/-- The number of goals that come up when the first of some goals is refined by its first rule, and
the premises are put behind the others, as long as there is a rule. -/
def autoCreated (s : Store) : List Sequent → Nat
  | [] => 0
  | q :: queue =>
    match q.applicableRules with
    | [] => 0
    | rule :: _ =>
      match happly : rule.apply s q with
      | .ok .closed => autoCreated s queue
      | .ok (.subgoals premises) =>
        have := Store.potential_subgoals_lt (Rule.apply_eq_subgoals_iff.1 happly)
        premises.length + autoCreated s (queue ++ premises)
      | _ => 0
termination_by queue => sumBy s.potential queue
decreasing_by
  · have hpos := Store.potential_pos (s := s) q
    rw [sumBy_cons]
    omega
  · rw [sumBy_cons, sumBy_append]
    omega

section Queue

variable {s : Store} {q : Sequent} {queue premises : List Sequent} {rule : Rule}
  {others : List Rule}

theorem autoCreated_stuck (h : q.applicableRules = []) : autoCreated s (q :: queue) = 0 := by
  rw [autoCreated, h]

theorem autoCreated_closed (h : q.applicableRules = .ax :: others) (hax : q.isAxiom = true) :
    autoCreated s (q :: queue) = autoCreated s queue := by
  have happly : Rule.apply s .ax q = .ok .closed := by simp [Rule.apply, hax]
  rw [autoCreated, h]
  dsimp only
  split <;> simp_all

theorem autoCreated_infer (h : q.applicableRules = rule :: others)
    (hinfers : Infers s rule q premises) :
    autoCreated s (q :: queue) = premises.length + autoCreated s (queue ++ premises) := by
  have happly : rule.apply s q = .ok (.subgoals premises) :=
    Rule.apply_eq_subgoals_iff.2 (subgoals_eq_ok_iff.2 hinfers)
  rw [autoCreated, h]
  dsimp only
  split <;> simp_all

end Queue

/-! ### Steps -/

theorem goals_eq_nil_of_first? (h : p.first? = none) : p.goals = [] := by
  simpa [first?, ids] using h

theorem exists_goals_of_first? {id : GoalId} (h : p.first? = some id) :
    ∃ goal rest, p.goals = goal :: rest ∧ goal.id = id := by
  unfold first? ids at h
  cases hgoals : p.goals with
  | nil =>
    rw [hgoals] at h
    cases h
  | cons goal rest =>
    rw [hgoals] at h
    exact ⟨goal, rest, rfl, Option.some.inj h⟩

/-- What comes of refining the first goal: the goals that will have come up in the end remain the
same, or there are not enough numbers for them. -/
inductive AutoStep (p : ProofState) : Except Fault (Refinement × ProofState) → Prop
  | granted {refinement : Refinement} {next : ProofState} (hdone : refinement ≠ .nothingToDo)
      (hsound : next.Sound) (hstore : next.store = p.store)
      (hcreated : next.next.index + autoCreated p.store next.sequents =
        p.next.index + autoCreated p.store p.sequents) : AutoStep p (.ok (refinement, next))
  | outOfNumbers {fault : Fault}
      (hsize : UInt32.size ≤ p.next.index + autoCreated p.store p.sequents) :
      AutoStep p (.error fault)

theorem AutoStep.of_remember {id : GoalId} {result : Except Fault (Refinement × ProofState)}
    (h : AutoStep (p.remember id) result) : AutoStep p result := by
  have hsequents := sequents_remember p id
  cases h with
  | granted hdone hsound hstore hcreated =>
    rw [hsequents] at hcreated
    exact .granted hdone hsound hstore hcreated
  | outOfNumbers hsize =>
    rw [hsequents] at hsize
    exact .outOfNumbers hsize

/-- One refinement of the first goal: an axiom goes away, and premises are put behind the others. -/
theorem autoStep_refine (hp : p.Sound) {goal : Goal} {rest : List Goal} {rule : Rule}
    {others : List Rule} (hgoals : p.goals = goal :: rest)
    (hrules : goal.sequent.applicableRules = rule :: others) :
    AutoStep p (p.refine goal.id rule) := by
  have hgoal : goal ∈ p.goals := by simp [hgoals]
  have hrule : rule ∈ goal.sequent.applicableRules := by simp [hrules]
  have hsequents : p.sequents = goal.sequent :: rest.map (·.sequent) := by
    rw [sequents, hgoals, List.map_cons]
  have hclose : (p.close goal.id).sequents = rest.map (·.sequent) := by
    rw [sequents, hp.goals_close (show p.goals = [] ++ goal :: rest from hgoals), List.nil_append]
  have hnumber : (p.close goal.id).next = p.next := rfl
  rcases (mem_applicableRules_iff hp.wellFormed (hp.owns goal hgoal)).1 hrule with
    ⟨rfl, hax⟩ | ⟨premises, hinfers⟩
  · rw [hp.refine_eq_closed hgoal hax]
    refine .granted (by simp) (hp.close goal.id) rfl ?_
    rw [hclose, hsequents, autoCreated_closed hrules hax, hnumber]
  · have hcreated : autoCreated p.store p.sequents =
        premises.length + autoCreated p.store (rest.map (·.sequent) ++ premises) := by
      rw [hsequents]
      exact autoCreated_infer hrules hinfers
    rw [hp.refine_eq_expanded hgoal hinfers]
    cases hopen : (p.close goal.id).openGoals premises with
    | error fault =>
      have hsize := (openGoals_eq_error hopen).2
      rw [hnumber] at hsize
      exact .outOfNumbers (by omega)
    | ok opened =>
      have howns := hinfers.owns hp.wellFormed (hp.owns goal hgoal)
      obtain ⟨hsound, hstore, hopened, -, hnext⟩ := (hp.close goal.id).openGoals howns hopen
      refine .granted (by simp) hsound hstore ?_
      rw [hopened, hclose, hnext, hnumber]
      omega

theorem goals_remember {goal : Goal} {rest : List Goal} (h : p.goals = goal :: rest) :
    ∃ rest', (p.remember goal.id).goals = goal.remember :: rest' := by
  rw [remember, h]
  simp only [List.map_cons, if_true]
  exact ⟨_, rfl⟩

/-- **The step lemma**: the rule is looked up, and what is remembered by that makes no
difference. -/
theorem autoStep_applicableRules (hp : p.Sound) {id : GoalId} {rule : Rule} {others : List Rule}
    (hfirst : p.first? = some id) (hrules : (p.applicableRules id).1.getD [] = rule :: others) :
    AutoStep p ((p.applicableRules id).2.refine id rule) := by
  obtain ⟨goal, rest, hgoals, rfl⟩ := exists_goals_of_first? hfirst
  rw [hp.fst_applicableRules (by simp [hgoals])] at hrules
  obtain ⟨rest', hremember⟩ := goals_remember hgoals
  rw [snd_applicableRules]
  exact (autoStep_refine (hp.remember goal.id) hremember hrules).of_remember

/-- **A rule that is listed does something**, so `:auto` goes on after every refinement. -/
theorem refine_first_ne_nothingToDo (hp : p.Sound) {id : GoalId} {rule : Rule}
    {others : List Rule} (hfirst : p.first? = some id)
    (hrules : (p.applicableRules id).1.getD [] = rule :: others) (next : ProofState) :
    (p.applicableRules id).2.refine id rule ≠ .ok (.nothingToDo, next) := by
  intro hrefine
  have hstep := autoStep_applicableRules hp hfirst hrules
  rw [hrefine] at hstep
  cases hstep with
  | granted hdone => exact hdone rfl

/-! ### Runs -/

/-- How automatic refinement comes to its end: nothing is left, or the first goal has no rule.  What
was written last says so. -/
inductive AutoEnds (p : ProofState) : Outcome → Prop
  | complete {events : List Event} {p' : ProofState} (hgoals : p'.goals = [])
      (hlast : (p.goals = [] ∧ events = []) ∨
        events.getLast? = some (.line "no more goals, proof complete")) : AutoEnds p (events, p')
  | stuck {events : List Event} {p' : ProofState} {goal : Goal} {rest : List Goal}
      (hgoals : p'.goals = goal :: rest) (hrules : goal.sequent.applicableRules = [])
      (hlast : events.getLast? = some (stuckLine goal.id)) : AutoEnds p (events, p')

/-- What comes of automatic refinement. -/
inductive AutoRun (p : ProofState) : Except Fault Outcome → Prop
  | ended {outcome : Outcome} (hends : AutoEnds p outcome)
      (hnext : outcome.2.next.index = p.next.index + autoCreated p.store p.sequents) :
      AutoRun p (.ok outcome)
  | outOfNumbers {fault : Fault}
      (hsize : UInt32.size ≤ p.next.index + autoCreated p.store p.sequents) :
      AutoRun p (.error fault)

/-- What is told about the last goal ends with the line that says so. -/
theorem getLast?_append_report {next : ProofState} (written : List Event) {id : GoalId}
    {refinement : Refinement} (h : next.goals = []) :
    (written ++ report next id refinement).getLast? =
      some (.line "no more goals, proof complete") := by
  have hcomplete : completeLines next = [.line "no more goals, proof complete"] :=
    if_pos (isComplete_iff.2 h)
  unfold report
  rw [hcomplete, ← List.append_assoc, List.getLast?_append]
  rfl

theorem AutoEnds.of_next {next : ProofState} {entry : Event} {id : GoalId}
    {refinement : Refinement} {rest : Outcome} (h : AutoEnds next rest) :
    AutoEnds p (entry :: report next id refinement ++ rest.1, rest.2) := by
  cases h with
  | complete hgoals hlast =>
    refine .complete hgoals (.inr ?_)
    rcases hlast with ⟨hnext, rfl⟩ | hlast
    · rw [List.append_nil]
      exact getLast?_append_report [entry] hnext
    · rw [List.getLast?_append, hlast]
      rfl
  | stuck hgoals hrules hlast =>
    refine .stuck hgoals hrules ?_
    rw [List.getLast?_append, hlast]
    rfl

/-- **Automatic refinement** comes to its end, with as many goals as there are to come, or runs out
of numbers. -/
theorem auto_run (hp : p.Sound) : AutoRun p (auto p) := by
  fun_induction auto p with
  | case1 p hfirst =>
    have hgoals := goals_eq_nil_of_first? hfirst
    refine .ended (.complete hgoals (.inl ⟨hgoals, rfl⟩)) ?_
    simp [sequents, hgoals, autoCreated]
  | case2 p id hfirst hrules =>
    obtain ⟨goal, rest, hgoals, rfl⟩ := exists_goals_of_first? hfirst
    have hgoal : goal ∈ p.goals := by simp [hgoals]
    rw [hp.fst_applicableRules hgoal] at hrules
    rw [snd_applicableRules]
    have hstuck : goal.sequent.applicableRules = [] := hrules
    obtain ⟨rest', hremember⟩ := goals_remember hgoals
    refine .ended (.stuck hremember hstuck rfl) ?_
    rw [sequents, hgoals, List.map_cons, autoCreated_stuck hstuck]
    rfl
  | case3 p id hfirst rule others hrules fault hrefine =>
    have hstep := autoStep_applicableRules hp hfirst hrules
    rw [hrefine] at hstep
    cases hstep with
    | outOfNumbers hsize => exact .outOfNumbers hsize
  | case4 p id hfirst rule others hrules next hrefine =>
    exact absurd hrefine (refine_first_ne_nothingToDo hp hfirst hrules next)
  | case5 p id hfirst rule others hrules refinement next hrefine written hdone hlt =>
    rename_i ih
    have hstep := autoStep_applicableRules hp hfirst hrules
    rw [hrefine] at hstep
    cases hstep with
    | granted _ hsound hstore hcreated =>
      have hrun := ih hsound
      generalize auto next = result at hrun ⊢
      cases hrun with
      | ended hends hnext =>
        rw [hstore, hcreated] at hnext
        exact .ended hends.of_next hnext
      | outOfNumbers hsize =>
        rw [hstore, hcreated] at hsize
        exact .outOfNumbers hsize

/-- **When automatic refinement comes to its end**: as long as there are numbers for its goals. -/
theorem exists_auto_iff (hp : p.Sound) : (∃ outcome, auto p = .ok outcome) ↔
    p.next.index + autoCreated p.store p.sequents < UInt32.size := by
  have hrun := auto_run hp
  constructor
  · rintro ⟨outcome, hok⟩
    rw [hok] at hrun
    cases hrun with
    | ended _ hnext =>
      rw [← hnext]
      exact outcome.2.next.index_lt
  · intro hlt
    cases hauto : auto p with
    | ok outcome => exact ⟨outcome, rfl⟩
    | error fault =>
      rw [hauto] at hrun
      cases hrun with
      | outOfNumbers hsize => omega

theorem next_auto (hp : p.Sound) {outcome : Outcome} (h : auto p = .ok outcome) :
    outcome.2.next.index = p.next.index + autoCreated p.store p.sequents := by
  have hrun := auto_run hp
  rw [h] at hrun
  cases hrun with
  | ended _ hnext => exact hnext

/-- **What automatic refinement of a loaded sequent settles**: the sequent holds and no goal is
left, or it does not and the first goal has no rule. -/
theorem auto_settles {problem : Sequent} (hstore : p.store.WellFormed)
    (hproblem : p.store.OwnsSequent problem) {outcome : Outcome}
    (h : auto (p.loadSequent problem) = .ok outcome) :
    ((∀ α : Assignment, problem.Holds (p.store.eval α)) ∧ outcome.2.goals = [] ∧
        outcome.1.getLast? = some (.line "no more goals, proof complete")) ∨
      ((∃ α : Assignment, ¬problem.Holds (p.store.eval α)) ∧ ∃ goal rest,
        outcome.2.goals = goal :: rest ∧ goal.sequent.applicableRules = [] ∧
        outcome.1.getLast? = some (stuckLine goal.id)) := by
  obtain ⟨refinements, hcourse⟩ := course_auto h
  have hrun := auto_run (sound_loadSequent hstore hproblem)
  rw [h] at hrun
  cases hrun with
  | ended hends =>
    cases hends with
    | complete hgoals hlast =>
      refine .inl ⟨hcourse.holds_of_complete hstore hproblem hgoals, hgoals, ?_⟩
      rcases hlast with ⟨hnil, -⟩ | hlast
      · cases hnil
      · exact hlast
    | stuck hgoals hrules hlast =>
      refine .inr ⟨hcourse.exists_not_holds hstore hproblem ?_ hrules, _, _, hgoals, hrules, hlast⟩
      rw [hgoals]
      exact List.mem_cons_self

/-! ### Command lines -/

/-- A line that begins with a colon is a command. -/
theorem execute_of_colon (p : ProofState) (line : String) {cs : List Char}
    (h : line.toList = ':' :: cs) :
    ∃ entry more, execute p line = (perform p (.ofLine (':' :: Text.trimEnd cs))).map
      fun outcome => ⟨entry :: outcome.1, outcome.2, more⟩ := by
  have htrim : Text.trim line.toList = ':' :: Text.trimEnd cs := by
    rw [h]
    exact Text.trim_cons_of_not_blank (by decide)
  let trimmed := ':' :: Text.trimEnd cs
  refine ⟨.log .debug s!"command: {String.ofList trimmed}", Command.ofLine trimmed != .quit, ?_⟩
  unfold execute
  rw [htrim]
  split
  · rename_i hnil
    cases hnil
  · rename_i hcomment
    exact absurd (List.cons.inj hcomment).1 (by decide)
  · dsimp only
    cases perform p (.ofLine (':' :: Text.trimEnd cs)) <;> rfl

theorem ofLine_load (cs : List Char) :
    Command.ofLine (':' :: Text.trimEnd ('l' :: 'o' :: 'a' :: 'd' :: ' ' :: cs)) =
      .load (Text.trim cs) := by
  let word := [':', 'l', 'o', 'a', 'd']
  have hsplit : Text.splitWord (Text.trim (word ++ ' ' :: cs)) = (word, Text.trim cs) :=
    Text.splitWord_trim_append (by decide) (by decide)
  have htrim : Text.trim (word ++ ' ' :: cs) =
      ':' :: Text.trimEnd ('l' :: 'o' :: 'a' :: 'd' :: ' ' :: cs) :=
    Text.trim_cons_of_not_blank (by decide)
  rw [← htrim]
  unfold Command.ofLine
  rw [hsplit]
  rfl

/-- A text that can be read is loaded. -/
theorem exists_execute_load {text : String} {e : SequentExpr}
    (h : SequentExpr.read text = .ok e) :
    ∃ loaded, execute p (":load " ++ text) = .ok loaded ∧ loaded.state =
      loadSequent { p with store := (e.build p.store).2 } (e.build p.store).1 := by
  have hline : (":load " ++ text).toList =
      ':' :: 'l' :: 'o' :: 'a' :: 'd' :: ' ' :: text.toList := by
    rw [String.toList_append]
    rfl
  obtain ⟨entry, more, hexecute⟩ := execute_of_colon p (":load " ++ text) hline
  have hread : p.load (String.ofList (Text.trim text.toList)) =
      .ok (loadSequent { p with store := (e.build p.store).2 } (e.build p.store).1) := by
    rw [ProofState.load, Store.readSequent, SequentExpr.read_trim h]
    rfl
  rw [hexecute, ofLine_load, perform, load, hread]
  exact ⟨_, rfl, rfl⟩

theorem execute_auto (p : ProofState) : ∃ entry more, execute p ":auto" =
    (auto p).map fun outcome => ⟨entry :: outcome.1, outcome.2, more⟩ :=
  execute_of_colon p ":auto" rfl

theorem exists_execute_auto_iff :
    (∃ reply, execute p ":auto" = .ok reply) ↔ ∃ outcome, auto p = .ok outcome := by
  obtain ⟨entry, more, hexecute⟩ := execute_auto p
  rw [hexecute]
  cases auto p with
  | error fault => constructor <;> rintro ⟨_, h⟩ <;> cases h
  | ok outcome => exact ⟨fun _ => ⟨outcome, rfl⟩, fun _ => ⟨_, rfl⟩⟩

theorem exists_auto_of_execute {reply : Reply} (h : execute p ":auto" = .ok reply) :
    ∃ entry events, auto p = .ok (events, reply.state) ∧ reply.events = entry :: events := by
  obtain ⟨entry, more, hexecute⟩ := execute_auto p
  rw [hexecute] at h
  cases hauto : auto p with
  | error fault =>
    rw [hauto] at h
    cases h
  | ok outcome =>
    rw [hauto] at h
    obtain rfl := Except.ok.inj h
    exact ⟨entry, outcome.1, rfl, rfl⟩

theorem stuckLine_ne (id : GoalId) : stuckLine id ≠ .line "no more goals, proof complete" := by
  intro h
  have htext := congrArg String.toList (Event.line.inj h)
  simp [toString] at htext

/-! ### Agreement -/

/-- What can be seen of a first goal without rules: it has the lowest number, nothing in it can be
taken apart, and the proof is exhausted. -/
theorem first_of_stuck (hp : p.Sound) {goal : Goal} {rest : List Goal}
    (hgoals : p.goals = goal :: rest) (hrules : goal.sequent.applicableRules = []) :
    p.first? = some goal.id ∧ p.goal? goal.id = some goal.sequent ∧
      (∀ other ∈ p.goals, goal.id.index ≤ other.id.index) ∧ p.isExhausted.1 = true ∧
      goal.sequent.hasDecomposable = false ∧ goal.sequent.isAxiom = false := by
  have hgoal : goal ∈ p.goals := by simp [hgoals]
  obtain ⟨hsat, hax⟩ := Sequent.applicableRules_eq_nil_iff.1 hrules
  refine ⟨by simp [first?, ids, hgoals], ?_, ?_,
    hp.fst_isExhausted_iff.2 ⟨goal, hgoal, hrules⟩,
    Sequent.saturated_iff_hasDecomposable.1 hsat, hax⟩
  · rw [goal?, hp.find?_eq_some_iff.2 ⟨hgoal, rfl⟩]
    rfl
  · have hordered := hp.ordered
    rw [hgoals, List.pairwise_cons] at hordered
    rw [hgoals, List.forall_mem_cons]
    exact ⟨Nat.le_refl _, fun other hother => Nat.le_of_lt (hordered.1 other hother)⟩

/-- **Automatic refinement agrees with the search.**  At any time in a session a text that can be
read can be loaded, and then `:auto` comes to its end if and only if fewer than 2 ^ 32 goals come
up.  The proof is complete, and the last thing written says so, exactly if the search finds a proof.
Otherwise the last thing written names the first goal, to which no rule is applicable. -/
theorem auto_agrees_with_search (hp : Reachable p) {text : String} {e : SequentExpr}
    (htext : SequentExpr.read text = .ok e) :
    let built := e.build p.store
    ∃ loaded run, execute p (":load " ++ text) = .ok loaded ∧
      loaded.state.store = built.2 ∧ loaded.state.goals = [⟨.zero, built.1, none⟩] ∧
      built.2.search none built.1 = .ok run ∧
      ((∃ reply, execute loaded.state ":auto" = .ok reply) ↔
        1 + autoCreated built.2 [built.1] < 2 ^ 32) ∧
      ∀ reply, execute loaded.state ":auto" = .ok reply →
        reply.state.next.index = 1 + autoCreated built.2 [built.1] ∧
        (reply.state.isComplete = true ↔ ∃ rules, run.result = .proof rules) ∧
        (reply.events.getLast? = some (.line "no more goals, proof complete") ↔
          ∃ rules, run.result = .proof rules) ∧
        ((¬∃ rules, run.result = .proof rules) → ∃ g q,
          reply.state.first? = some g ∧ reply.state.goal? g = some q ∧
          (∀ goal ∈ reply.state.goals, g.index ≤ goal.id.index) ∧
          reply.events.getLast? = some (.line s!"goal {g.text} has no applicable rules") ∧
          reply.state.isExhausted.1 = true ∧ q.hasDecomposable = false ∧ q.isAxiom = false) := by
  intro built
  obtain ⟨hbuilt, hsound⟩ := sound_load hp.sound.1 e
  have howns := (Store.grows_build_sequent hp.sound.1.wellFormed e).2
  obtain ⟨run, hrun, -, hverdict⟩ := Search.search_verdict hbuilt.wellFormed howns
  obtain ⟨loaded, hload, hstate⟩ := exists_execute_load (p := p) htext
  refine ⟨loaded, run, hload, by rw [hstate]; rfl, by rw [hstate]; rfl, hrun, ?_, ?_⟩
  · rw [hstate, exists_execute_auto_iff, exists_auto_iff hsound]
    rfl
  · rw [hstate]
    intro reply hreply
    obtain ⟨entry, events, hauto, hevents⟩ := exists_auto_of_execute hreply
    refine ⟨next_auto hsound hauto, ?_⟩
    rw [hverdict, hevents, List.getLast?_cons, isComplete_iff]
    rcases auto_settles hbuilt.wellFormed howns hauto with
      ⟨hholds, hgoals, hlast⟩ | ⟨hfails, goal, rest, hgoals, hrules, hlast⟩
    · rw [hlast]
      exact ⟨iff_of_true hgoals hholds, iff_of_true rfl hholds, fun hnot => absurd hholds hnot⟩
    · dsimp only at hgoals hlast
      obtain ⟨α, hα⟩ := hfails
      have hnot : ¬∀ α : Assignment, built.1.Holds (built.2.eval α) := fun hall => hα (hall α)
      obtain ⟨refinements, hcourse⟩ := course_auto hauto
      have hend := (hcourse.sound hsound).1
      obtain ⟨hfirst, hsequent, hlowest, hexhausted, hstuck⟩ := first_of_stuck hend hgoals hrules
      rw [hlast]
      refine ⟨iff_of_false (by simp [hgoals]) hnot, iff_of_false ?_ hnot, fun _ => ?_⟩
      · exact fun hline => stuckLine_ne goal.id (Option.some.inj hline)
      · exact ⟨goal.id, goal.sequent, hfirst, hsequent, hlowest, rfl, hexhausted, hstuck⟩

/-- Peirce's law is read, loaded and proved. -/
theorem auto_agrees_with_search_on_peirce :
    let p := ofStore (.ofPolicy {})
    let law : SequentExpr := ⟨[], [.binary .implies
      (.binary .implies (.binary .implies (.atom "p") (.atom "q")) (.atom "p")) (.atom "p")]⟩
    let text := "((p -> q) -> p) -> p"
    SequentExpr.read text = .ok law ∧
      ∃ loaded reply run, execute p (":load " ++ text) = .ok loaded ∧
        execute loaded.state ":auto" = .ok reply ∧
        (law.build p.store).2.search none (law.build p.store).1 = .ok run ∧
        (∃ rules, run.result = .proof rules) ∧ reply.state.isComplete = true ∧
        reply.events.getLast? = some (.line "no more goals, proof complete") := by
  intro p law text
  have htokens : (Token.scan text.toList).bind SequentExpr.ofTokens? = some law := by
    decide +kernel
  have htext : SequentExpr.read text = .ok law := by rw [SequentExpr.read, htokens]
  have hcreated : 1 + autoCreated (law.build p.store).2 [(law.build p.store).1] < 2 ^ 32 := by
    decide +kernel
  obtain ⟨loaded, run, hload, -, -, hrun, hends, hagrees⟩ :=
    auto_agrees_with_search (.start (Store.reachable_ofPolicy {})) htext
  obtain ⟨reply, hreply⟩ := hends.2 hcreated
  obtain ⟨-, hcomplete, hlast, -⟩ := hagrees reply hreply
  have hresult : ((law.build p.store).2.search none (law.build p.store).1).toOption.map
      (·.result matches .proof _) = some true := by
    decide +kernel
  have hproof : ∃ rules, run.result = .proof rules := by
    rw [hrun] at hresult
    cases hcase : run.result <;> simp_all [Except.toOption]
  exact ⟨htext, loaded, reply, run, hload, hreply, hrun, hproof, hcomplete.2 hproof,
    hlast.2 hproof⟩

end SequentCalculus.Session
