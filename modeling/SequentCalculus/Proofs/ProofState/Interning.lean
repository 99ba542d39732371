import SequentCalculus.Proofs.ProofState.Calls

/-!
# Interning during a proof

The store of a proof state is open to its user, who may intern formulas at any time.  The proof goes
on as if nothing had happened: without the interning the other calls of a session give the same
answers, with the same goals under the same numbers (`Sound.calls_filter`).

The two sessions run over stores of different sizes.  A proof state looks at its store in one place
only, where a rule takes its principal formula apart, and what is found there is known since the
formula was interned (`Rule.apply_of_extends`).  So each call commutes with the change to a larger
store (`Sound.call_withStore`).  What is printed is read off the trees of formulas that the smaller
store owns, and these stay as they are, too.
-/

namespace SequentCalculus

/-! ### Rules and texts in a growing store -/

section Growing

variable {s t : Store} {q : Sequent}

/-- A rule comes to the same in every larger store. -/
theorem Rule.apply_of_extends (hs : s.WellFormed) (ht : t.WellFormed) (hst : s.Extends t)
    (hq : s.OwnsSequent q) (rule : Rule) : rule.apply t q = rule.apply s q := by
  cases rule with
  | ax => rfl
  | logical side shape f =>
    have hsubgoals :
        subgoals t (.logical side shape f) q = subgoals s (.logical side shape f) q := by
      unfold subgoals
      by_cases hmem : f ∈ q.side side
      · have hnode := hs.node?_eq_of_extends ht hst (hq side f hmem)
        simp only [hnode]
      · simp only [hmem, not_false_eq_true, if_true]
    rw [apply, apply, hsubgoals]

theorem Store.text_of_extends (hs : s.WellFormed) (ht : t.WellFormed) (hst : s.Extends t)
    {f : Formula} (hf : s.Owns f) : t.text f = s.text f := by
  rw [text, text, hs.tree_extend ht hst hf]

theorem Store.sequentText_of_extends (hs : s.WellFormed) (ht : t.WellFormed) (hst : s.Extends t)
    (hq : s.OwnsSequent q) : t.sequentText q = s.sequentText q := by
  have hcedent (side : Side) : t.cedentText (q.side side) = s.cedentText (q.side side) := by
    unfold cedentText
    rw [List.map_congr_left fun f hf => text_of_extends hs ht hst (hq side f hf)]
  have hleft : t.cedentText q.left = s.cedentText q.left := hcedent .left
  have hright : t.cedentText q.right = s.cedentText q.right := hcedent .right
  rw [sequentText, sequentText, hleft, hright]

/-- The applicable rules of a sequent have their principal formulas in it. -/
theorem Store.ruleText_of_extends (hs : s.WellFormed) (ht : t.WellFormed) (hst : s.Extends t)
    (hq : s.OwnsSequent q) {rule : Rule} (hrule : rule ∈ q.applicableRules) :
    t.ruleText rule = s.ruleText rule := by
  cases rule with
  | ax => rfl
  | logical side shape f =>
    have hmem : f ∈ q.side side := (Sequent.logical_mem_applicableRules.1 hrule).1
    rw [ruleText, ruleText, text_of_extends hs ht hst (hq side f hmem)]

end Growing

/-! ### Sessions that intern -/

/-- Whether a call interns. -/
def Call.interns : Call → Bool
  | .intern _ => true
  | _ => false

/-- The texts of the sequent and of the rules that an answer shows. -/
def Answer.texts (s : Store) : Answer → List String
  | .goal q => (q.map s.sequentText).toList
  | .rules listed => (listed.getD []).map s.ruleText
  | .rule found => (found.map s.ruleText).toList
  | _ => []

namespace ProofState

variable {p p' : ProofState} {t : Store} {c : Call}

/-- Every call of a session keeps to its contract, in the state in which it is made. -/
def Admits (p : ProofState) : List Call → Prop
  | [] => True
  | c :: cs => c.Proper p ∧ ∀ answer next, p.call c = .ok (answer, next) → next.Admits cs

/-- Calls without a contract can be made anywhere. -/
theorem admits_of_forall_proper {cs : List Call} (h : ∀ c ∈ cs, ∀ q, c.Proper q)
    (p : ProofState) : p.Admits cs := by
  induction cs generalizing p with
  | nil => trivial
  | cons c cs ih =>
    rw [List.forall_mem_cons] at h
    exact ⟨h.1 p, fun _ next _ => ih h.2 next⟩

/-- The state over another store. -/
def withStore (p : ProofState) (t : Store) : ProofState :=
  { p with store := t }

/-- A result over another store. -/
def onStore {α : Type} (t : Store) (result : Except Fault (α × ProofState)) :
    Except Fault (α × ProofState) :=
  result.map fun r => (r.1, r.2.withStore t)

/-! ### Calls over a larger store -/

theorem applicableRules_withStore (p : ProofState) (t : Store) (id : GoalId) :
    (p.withStore t).applicableRules id =
      ((p.applicableRules id).1, (p.applicableRules id).2.withStore t) := by
  have hfind : (p.withStore t).find? id = p.find? id := rfl
  unfold applicableRules
  rw [hfind]
  cases p.find? id <;> rfl

theorem ruleAt_withStore (p : ProofState) (t : Store) (address : Address) :
    (p.withStore t).ruleAt address = ((p.ruleAt address).1, (p.ruleAt address).2.withStore t) := by
  unfold ruleAt
  rw [applicableRules_withStore]

theorem isExhaustedAmong_withStore (p : ProofState) (t : Store) (ids : List GoalId) :
    (p.withStore t).isExhaustedAmong ids =
      ((p.isExhaustedAmong ids).1, (p.isExhaustedAmong ids).2.withStore t) := by
  induction ids generalizing p with
  | nil => rfl
  | cons id ids ih =>
    rw [isExhaustedAmong, isExhaustedAmong, applicableRules_withStore]
    dsimp only
    split
    · rfl
    · exact ih _

theorem openGoals_withStore (p : ProofState) (t : Store) (qs : List Sequent) :
    (p.withStore t).openGoals qs = onStore t (p.openGoals qs) := by
  induction qs generalizing p with
  | nil => rfl
  | cons q qs ih =>
    have hnext : (p.withStore t).next = p.next := rfl
    rw [openGoals, openGoals, hnext]
    cases GoalId.ofNat (p.next.index + 1) with
    | error fault => rfl
    | ok next =>
      let opened : ProofState := { p with goals := p.goals ++ [⟨p.next, q, none⟩], next := next }
      have hopened : ({ p.withStore t with
          goals := (p.withStore t).goals ++ [⟨p.next, q, none⟩], next := next } : ProofState) =
          opened.withStore t := rfl
      dsimp only
      rw [hopened, ih opened]
      cases opened.openGoals qs <;> rfl

theorem replace_withStore {goal : Goal} {rule : Rule}
    (h : rule.apply t goal.sequent = rule.apply p.store goal.sequent) :
    (p.withStore t).replace goal rule = onStore t (p.replace goal rule) := by
  have hstore : (p.withStore t).store = t := rfl
  have hclose : (p.withStore t).close goal.id = (p.close goal.id).withStore t := rfl
  unfold replace
  rw [hstore, hclose, h]
  cases rule.apply p.store goal.sequent with
  | error fault => rfl
  | ok application =>
    cases application with
    | failed => rfl
    | closed => rfl
    | subgoals subgoals =>
      dsimp only
      rw [openGoals_withStore]
      cases (p.close goal.id).openGoals subgoals <;> rfl

theorem Sound.refine_withStore (hp : p.Sound) (hgrows : p.store.Grows t) (id : GoalId)
    (rule : Rule) : (p.withStore t).refine id rule = onStore t (p.refine id rule) := by
  obtain ⟨hext, hwf⟩ := hgrows.extend_wellFormed hp.wellFormed
  have hfind : (p.withStore t).find? id = p.find? id := rfl
  unfold refine
  rw [hfind]
  cases hgoal : p.find? id with
  | none => rfl
  | some goal =>
    have howns := hp.owns goal (List.mem_of_find?_eq_some hgoal)
    have happly : rule.apply t goal.sequent = rule.apply (p.remember id).store goal.sequent :=
      Rule.apply_of_extends hp.wellFormed hwf hext howns rule
    dsimp only
    split
    · exact replace_withStore happly
    · rfl

/-- **The step lemma**: every call but loading and interning is answered in the same way over a
larger store, and leaves the same state. -/
theorem Sound.call_withStore (hp : p.Sound) (hgrows : p.store.Grows t)
    (hload : ∀ text, c ≠ .load text) (hintern : c.interns = false) :
    (p.withStore t).call c = onStore t (p.call c) := by
  have hrefine (id : GoalId) (rule : Rule) :
      ((p.withStore t).refine id rule).map (fun refined => (Answer.refined refined.1, refined.2)) =
        onStore t ((p.refine id rule).map
          fun refined => (Answer.refined refined.1, refined.2)) := by
    rw [hp.refine_withStore hgrows]
    cases p.refine id rule <;> rfl
  cases c with
  | load text => exact absurd rfl (hload text)
  | reset => rfl
  | goal id => rfl
  | applicableRules id =>
    rw [call, call, applicableRules_withStore]
    rfl
  | ruleAt address =>
    rw [call, call, ruleAt_withStore]
    rfl
  | refine id rule => exact hrefine id rule
  | refineAt address =>
    rw [call, call, refineAt_eq, refineAt_eq, ruleAt_withStore]
    cases (p.ruleAt address).1 with
    | none => rfl
    | some rule => exact hrefine address.goal rule
  | isExhausted =>
    have hids : (p.withStore t).ids = p.ids := rfl
    rw [call, call, ProofState.isExhausted, ProofState.isExhausted, hids,
      isExhaustedAmong_withStore]
    rfl
  | intern interning => cases hintern

/-- Only loading and interning change the store. -/
theorem CallStep.store_eq {answer : Answer} (h : CallStep p c answer p')
    (hload : ∀ text, c ≠ .load text) (hintern : c.interns = false) : p'.store = p.store := by
  cases h with
  | look _ hstore => exact hstore
  | @load text => exact absurd rfl (hload text)
  | reset => rfl
  | refine _ hleads => exact hleads.store
  | intern => cases hintern

/-! ### What answers show -/

/-- What an answer shows is printed alike over every larger store. -/
theorem Sound.texts_call (hp : p.Sound) (hgrows : p.store.Grows t) {answer : Answer}
    (h : p.call c = .ok (answer, p')) : answer.texts t = answer.texts p.store := by
  obtain ⟨hext, hwf⟩ := hgrows.extend_wellFormed hp.wellFormed
  have hrules (id : GoalId) : ∀ rules, (p.applicableRules id).1 = some rules →
      ∀ rule ∈ rules, t.ruleText rule = p.store.ruleText rule := by
    intro rules hlisted
    obtain ⟨goal, hgoal, -, rfl⟩ := hp.fst_applicableRules_eq_some_iff.1 hlisted
    exact fun rule hrule =>
      Store.ruleText_of_extends hp.wellFormed hwf hext (hp.owns goal hgoal) hrule
  have hrefined {result : Except Fault (Refinement × ProofState)}
      (h : result.map (fun refined => (Answer.refined refined.1, refined.2)) = .ok (answer, p')) :
      answer.texts t = answer.texts p.store := by
    cases result <;> cases h
    rfl
  cases c with
  | load text =>
    rw [call] at h
    split at h <;> cases h <;> rfl
  | reset =>
    cases h
    rfl
  | goal id =>
    cases h
    cases hfind : p.find? id with
    | none => simp only [Answer.texts, goal?, hfind, Option.map_none]
    | some goal =>
      have howns := hp.owns goal (List.mem_of_find?_eq_some hfind)
      simp only [Answer.texts, goal?, hfind, Option.map_some,
        Store.sequentText_of_extends hp.wellFormed hwf hext howns]
  | applicableRules id =>
    cases h
    cases hlisted : (p.applicableRules id).1 with
    | none => rfl
    | some rules => exact List.map_congr_left (hrules id rules hlisted)
  | ruleAt address =>
    cases h
    cases hlisted : (p.applicableRules address.goal).1 with
    | none => simp only [Answer.texts, ruleAt, hlisted, Option.bind_none, Option.map_none]
    | some rules =>
      simp only [Answer.texts, ruleAt, hlisted, Option.bind_some]
      cases hrule : rules[address.rule]? with
      | none => rfl
      | some rule =>
        have htext := hrules address.goal rules hlisted rule (List.mem_of_getElem? hrule)
        simp only [Option.map_some, htext]
  | refine id rule => exact hrefined h
  | refineAt address => exact hrefined h
  | isExhausted =>
    cases h
    rfl
  | intern interning =>
    rw [call] at h
    cases hbuilt : p.store.interning interning <;> rw [hbuilt] at h <;> cases h
    rfl

/-! ### Sessions -/

theorem proper_of_interns_eq_false (h : c.interns = false) (p : ProofState) : c.Proper p := by
  cases c with
  | intern interning => cases h
  | _ => trivial

theorem calls_cons_of_ok {answer : Answer} (h : p.call c = .ok (answer, p')) (cs : List Call) :
    p.calls (c :: cs) = (p'.calls cs).map fun rest => ((c, answer) :: rest.1, rest.2) := by
  rw [calls, h]

/-- **The run lemma**: a session over a larger store, in which formulas are interned, gives the
other answers as the session without the interning, and ends with the same goals. -/
theorem Sound.calls_filter (hp : p.Sound) (hs : p.store.Reachable) (hgrows : p.store.Grows t)
    {cs : List Call} (hload : ∀ text, .load text ∉ cs) (hadmits : (p.withStore t).Admits cs) :
    p.calls (cs.filter (!·.interns)) =
      ((p.withStore t).calls cs).map fun run =>
        (run.1.filter (!·.1.interns), run.2.withStore p.store) := by
  induction cs generalizing p t with
  | nil => rfl
  | cons c cs ih =>
    obtain ⟨hproper, hrest⟩ := hadmits
    have hloads : ∀ text, c ≠ .load text := fun text hc => hload text (hc ▸ List.mem_cons_self)
    have hload' : ∀ text, .load text ∉ cs := fun text hmem =>
      hload text (List.mem_cons_of_mem c hmem)
    cases hintern : c.interns with
    | true =>
      -- the store grows once more, and nothing else happens
      obtain ⟨interning, rfl⟩ : ∃ interning, c = .intern interning := by
        cases c with
        | intern interning => exact ⟨interning, rfl⟩
        | _ => cases hintern
      have ht : t.WellFormed := (hp.grow hgrows).wellFormed
      obtain ⟨built, hbuilt, hmore⟩ := exists_interning ht hproper
      have hcall : (p.withStore t).call (.intern interning) =
          .ok (.interned built.1, p.withStore built.2) := by
        show (t.interning interning).map _ = _
        rw [hbuilt]
        rfl
      rw [calls_cons_of_ok hcall, List.filter_cons_of_neg (by simp [hintern]),
        ih hp hs (hgrows.trans hmore) hload' (hrest _ _ hcall)]
      cases (p.withStore built.2).calls cs <;> rfl
    | false =>
      have hcall := hp.call_withStore hgrows hloads hintern
      rw [List.filter_cons_of_pos (by simp [hintern])]
      cases hbase : p.call c with
      | error fault =>
        rw [hbase] at hcall
        rw [calls, calls, hcall, hbase]
        rfl
      | ok called =>
        obtain ⟨answer, next⟩ := called
        rw [hbase] at hcall
        have hstep := hp.callStep (proper_of_interns_eq_false hintern p) hbase
        have hstore := hstep.store_eq hloads hintern
        obtain ⟨hreachable, hsound⟩ := hstep.sound hs hp
        have hnext := ih hsound hreachable (hstore ▸ hgrows) hload' (hrest _ _ hcall)
        rw [calls_cons_of_ok hcall, calls_cons_of_ok hbase, hnext, hstore]
        cases (next.withStore t).calls cs with
        | error fault => rfl
        | ok run => simp [Except.map, hintern]

/-- What the answers of a session without interning show is printed alike over every larger
store. -/
theorem Sound.texts_calls (hp : p.Sound) (hs : p.store.Reachable) (hgrows : p.store.Grows t)
    {cs : List Call} (hload : ∀ text, .load text ∉ cs) (hintern : ∀ c ∈ cs, c.interns = false)
    {log : List (Call × Answer)} (h : p.calls cs = .ok (log, p')) :
    p'.store = p.store ∧ p'.Sound ∧ ∀ entry ∈ log, entry.2.texts t = entry.2.texts p.store := by
  induction cs generalizing p log with
  | nil =>
    cases h
    exact ⟨rfl, hp, List.forall_mem_nil _⟩
  | cons c cs ih =>
    obtain ⟨answer, next, rest, hcall, hrest, rfl⟩ := calls_cons_eq_ok h
    rw [List.forall_mem_cons] at hintern ⊢
    have hstep := hp.callStep (proper_of_interns_eq_false hintern.1 p) hcall
    have hstore := hstep.store_eq (fun text hc => hload text (hc ▸ List.mem_cons_self)) hintern.1
    obtain ⟨hreachable, hsound⟩ := hstep.sound hs hp
    obtain ⟨hlast, hsound', htexts⟩ := ih hsound hreachable (hstore ▸ hgrows)
      (fun text hmem => hload text (List.mem_cons_of_mem c hmem)) hintern.2 hrest
    rw [hstore] at hlast htexts
    exact ⟨hlast, hsound', hp.texts_call hgrows hcall, htexts⟩

theorem CallStep.grows {answer : Answer} (h : CallStep p c answer p') (hp : p.Sound) :
    p.store.Grows p'.store := by
  cases h with
  | look _ hstore => exact hstore ▸ .refl
  | load => exact (Store.grows_build_sequent hp.wellFormed _).1
  | reset => exact .refl
  | refine _ hleads => exact hleads.store ▸ .refl
  | intern hgrows => exact hgrows

/-- In a session the store only grows. -/
theorem Sound.grows_calls (hp : p.Sound) (hs : p.store.Reachable) {cs : List Call}
    (hadmits : p.Admits cs) {log : List (Call × Answer)} (h : p.calls cs = .ok (log, p')) :
    p.store.Grows p'.store := by
  induction cs generalizing p log with
  | nil =>
    cases h
    exact .refl
  | cons c cs ih =>
    obtain ⟨answer, next, rest, hcall, hrest, -⟩ := calls_cons_eq_ok h
    have hstep := hp.callStep hadmits.1 hcall
    obtain ⟨hreachable, hsound⟩ := hstep.sound hs hp
    exact (hstep.grows hp).trans (ih hsound hreachable (hadmits.2 _ _ hcall) hrest)

/-- **Interning does not disturb a proof.**  A session in which nothing is loaded and the same
session without its interning calls come to the same: the same faults, the same answers to the other
calls, and in the end the same goals with what is remembered of them, and the same next number.
Only the store differs, which has grown.  Whatever it grows to, what the answers show and the goals
that are open in the end, with their applicable rules, are printed as in the store at the
beginning. -/
theorem interning_is_unseen {given : List GoalId} (h : Reached p given) {cs : List Call}
    (hload : ∀ text, .load text ∉ cs) (hadmits : p.Admits cs) :
    p.calls (cs.filter (!·.interns)) =
      (p.calls cs).map (fun run =>
        (run.1.filter (!·.1.interns), { run.2 with store := p.store })) ∧
    ∀ log p', p.calls cs = .ok (log, p') → p.store.Grows p'.store ∧
      ∀ t, p.store.Grows t →
        (∀ entry ∈ log, entry.1.interns = false →
          entry.2.texts t = entry.2.texts p.store) ∧
        ∀ goal ∈ p'.goals, t.sequentText goal.sequent = p.store.sequentText goal.sequent ∧
          ∀ rule ∈ goal.sequent.applicableRules, t.ruleText rule = p.store.ruleText rule := by
  obtain ⟨hs, hp⟩ := h.sound
  have hfilter := hp.calls_filter hs .refl hload hadmits
  refine ⟨hfilter, fun log p' hcalls => ⟨hp.grows_calls hs hadmits hcalls, fun t hgrows => ?_⟩⟩
  obtain ⟨hext, hwf⟩ := hgrows.extend_wellFormed hp.wellFormed
  -- the session without interning has the same goals, and its store is the first one
  have hbase : p.calls (cs.filter (!·.interns)) =
      .ok (log.filter (!·.1.interns), p'.withStore p.store) := by
    rw [hfilter]
    exact congrArg (Except.map _) hcalls
  obtain ⟨-, hsound, htexts⟩ := hp.texts_calls hs hgrows
    (fun text hmem => hload text (List.mem_of_mem_filter hmem))
    (fun c hc => by simpa using (List.mem_filter.1 hc).2) hbase
  refine ⟨fun entry hentry hintern => ?_, fun goal hgoal => ?_⟩
  · exact htexts entry (List.mem_filter.2 ⟨hentry, by simp [hintern]⟩)
  · have howns : p.store.OwnsSequent goal.sequent := hsound.owns goal hgoal
    exact ⟨Store.sequentText_of_extends hp.wellFormed hwf hext howns, fun rule hrule =>
      Store.ruleText_of_extends hp.wellFormed hwf hext howns hrule⟩

/-- While the goal `A -> A => A` is looked at and refined, `B`, `A & B` and `~A` are interned.  The
same calls without the interning give the same answers and goals. -/
theorem interning_is_unseen_in_self_implication :
    let rule : Rule := .logical .left .implies ⟨3, .compound (.bin .implies)⟩
    let one : GoalId := ⟨1, by decide⟩
    let two : GoalId := ⟨2, by decide⟩
    let listed : Call × Answer := (.applicableRules .zero, .rules (some [rule]))
    let refined : Call × Answer := (.refine .zero rule, .refined (.expanded [one, two]))
    let shown : Call × Answer :=
      (.goal two, .goal (some (.ofLists [⟨2, .atomic⟩] [⟨2, .atomic⟩])))
    let log : List (Call × Answer) :=
      [(.intern (.atom "B"), .interned (.formula ⟨4, .atomic⟩)), listed,
        (.intern (.expr (.binary .and (.atom "A") (.atom "B"))),
          .interned (.formula ⟨5, .compound (.bin .and)⟩)), refined,
        (.intern (.expr (.not (.atom "A"))), .interned (.formula ⟨6, .compound .not⟩)), shown]
    ∃ p p' q, Reached p [.zero] ∧ p.Admits (log.map (·.1)) ∧
      (∀ text, .load text ∉ log.map (·.1)) ∧ p.calls (log.map (·.1)) = .ok (log, p') ∧
      p.calls [listed.1, refined.1, shown.1] = .ok ([listed, refined, shown], q) ∧
      q = { p' with store := p.store } ∧ ∀ goal ∈ p'.goals,
        p'.store.sequentText goal.sequent = q.store.sequentText goal.sequent := by
  intro rule one two listed refined shown log
  have hmade : ((ofStore (.ofPolicy {})).calls (.load "A -> A => A" :: log.map (·.1))).toOption.map
      (·.1) = some ((.load "A -> A => A", .loaded none) :: log) := by
    decide +kernel
  obtain ⟨p', hcalls⟩ := exists_calls_eq_ok hmade
  obtain ⟨answer, p, rest, hcall, hrest, hlog⟩ := calls_cons_eq_ok hcalls
  obtain ⟨hanswer, rfl⟩ := List.cons.inj hlog
  obtain rfl : Answer.loaded none = answer := (Prod.mk.inj hanswer).2
  have hreached : Reached p [.zero] :=
    (Reached.start (Store.reachable_ofPolicy {})).call (c := .load "A -> A => A") trivial hcall
  have hproper : ∀ c ∈ log.map (·.1), ∀ q, c.Proper q := by
    simp [log, listed, refined, shown, Call.Proper, Interning.Proper]
  have hadmits : p.Admits (log.map (·.1)) := admits_of_forall_proper hproper p
  have hload : ∀ text, .load text ∉ log.map (·.1) := by
    simp [log, listed, refined, shown]
  obtain ⟨hfilter, hprinted⟩ := interning_is_unseen hreached hload hadmits
  obtain ⟨hgrows, htexts⟩ := hprinted log p' hrest
  rw [hrest] at hfilter
  exact ⟨p, p', _, hreached, hadmits, hload, hrest, hfilter, rfl,
    fun goal hgoal => ((htexts p'.store hgrows).2 goal hgoal).1⟩

end ProofState

end SequentCalculus
