import SequentCalculus.CommandLine
import SequentCalculus.Proofs.Search.OpenBranch
import SequentCalculus.Proofs.Search.Replay

/-!
# Reports are truthful

The program reports `Theorem` or `CounterSatisfiable` for every problem that it can read, if it is
given no limit.  `Theorem` is reported of valid problems only.  `CounterSatisfiable` means that the
problem fails, and the printed model says where: under every reading that fits the printed branch.
Equivalences that the policy keeps have truth values of their own there, so that a valid problem may
be reported as `CounterSatisfiable`.  If no equivalence stands on the printed branch, the valuations
that agree with the printed lines are readings that fit it, and the problem fails classically.
-/

namespace SequentCalculus.CommandLine

/-- The lines of output. -/
def Outcome.lines (outcome : Outcome) : List String :=
  outcome.events.filterMap Event.outputLine?

/-- The output begins with this status. -/
def Outcome.Reports (outcome : Outcome) (status name : String) : Prop :=
  outcome.lines.head? = some (Report.statusLine status name)

/-! ### The lines of a report -/

namespace Report

/-- The log of a search is no output. -/
theorem outputLines_searchEvents (run : Search.Run) :
    (searchEvents run).filterMap Event.outputLine? = [] := by
  unfold searchEvents
  rw [List.filterMap_append, List.append_eq_nil_iff]
  constructor
  · rw [List.filterMap_eq_nil_iff]
    intro event hevent
    obtain ⟨i, hi, rfl⟩ := List.mem_mapIdx.1 hevent
    rfl
  · split <;> rfl

theorem lines_searchEvents_append (run : Search.Run) (lines : List String) (code : ExitCode) :
    (Outcome.mk (searchEvents run ++ lines.map .line) code).lines = lines := by
  have hlines : (lines.map Event.line).filterMap Event.outputLine? = lines := by
    rw [List.filterMap_map]
    exact List.filterMap_some
  rw [Outcome.lines, List.filterMap_append, outputLines_searchEvents, List.nil_append, hlines]

theorem statusLine_inj {status status' name : String}
    (h : statusLine status name = statusLine status' name) : status = status' := by
  have hline : "% SZS status " ++ status ++ " for " ++ name =
      "% SZS status " ++ status' ++ " for " ++ name := h
  rwa [String.append_left_inj, String.append_left_inj, String.append_right_inj] at hline

variable {o : Options} {s : Store} {problem : Sequent} {run : Search.Run}

/-- The report on a proof begins with the status `Theorem`. -/
theorem exists_ofRun_proof {rules : List Rule} (h : run.result = .proof rules)
    (hreplay : (s.replay problem rules).fault = none) :
    ∃ outcome, ofRun o s problem run = .ok outcome ∧
      outcome.Reports "Theorem" o.problemName := by
  unfold ofRun
  simp only [h, hreplay]
  refine ⟨_, rfl, ?_⟩
  rw [Outcome.Reports, lines_searchEvents_append]
  rfl

/-- The report on a saturated leaf: the status, and the leaf as it is printed. -/
theorem exists_ofRun_saturated {leaf : Sequent} (h : run.result = .saturated leaf) :
    ∃ outcome, ofRun o s problem run = .ok outcome ∧
      outcome.Reports "CounterSatisfiable" o.problemName ∧
      (o.output = .proof → outcome.lines =
        statusLine "CounterSatisfiable" o.problemName ::
          marked "FiniteModel" o.problemName (s.modelLines leaf) ++
            if o.statistics then statisticsLines run.statistics else []) := by
  unfold ofRun
  simp only [h]
  refine ⟨_, rfl, ?_, fun houtput => ?_⟩
  · rw [Outcome.Reports, lines_searchEvents_append]
    rfl
  · rw [lines_searchEvents_append]
    simp only [houtput]

end Report

variable {o : Options} {text : String} {e : SequentExpr}

/-- Two statuses are not reported together. -/
theorem Outcome.Reports.unique {outcome : Outcome} {status status' name : String}
    (h : outcome.Reports status name) (h' : outcome.Reports status' name) : status = status' :=
  Report.statusLine_inj (Option.some.inj (h.symm.trans h'))

/-- A problem that can be read is searched, and the end of the search is reported. -/
theorem solve_eq_ofRun (hread : SequentExpr.read (Problem.body text) = .ok e) {run : Search.Run}
    (hrun : (e.build (.ofPolicy o.policy)).2.search o.steps (e.build (.ofPolicy o.policy)).1 =
      .ok run) :
    solve o (.ok text) =
      Report.ofRun o (e.build (.ofPolicy o.policy)).2 (e.build (.ofPolicy o.policy)).1 run := by
  have hproblem : (Store.ofPolicy o.policy).readProblem text =
      .ok (e.build (.ofPolicy o.policy)) := by
    rw [Store.readProblem, Store.readSequent, hread]
    rfl
  simp only [solve, hproblem, hrun]

/-- **The report on a problem that can be read**, without a limit: a proof of what fails under no
reading, or an open branch. -/
theorem exists_solve (hsteps : o.steps = none)
    (hread : SequentExpr.read (Problem.body text) = .ok e) :
    ∃ outcome, solve o (.ok text) = .ok outcome ∧
      ((outcome.Reports "Theorem" o.problemName ∧
          ∃ rules, Search.Settles (e.build (.ofPolicy o.policy)).2
            (e.build (.ofPolicy o.policy)).1 none (.proof rules)) ∨
        (outcome.Reports "CounterSatisfiable" o.problemName ∧
          ∃ leaf, Search.Settles (e.build (.ofPolicy o.policy)).2
              (e.build (.ofPolicy o.policy)).1 none (.saturated leaf) ∧
            (o.output = .proof → ∃ counters, outcome.lines =
              Report.statusLine "CounterSatisfiable" o.problemName ::
                Report.marked "FiniteModel" o.problemName
                  ((e.build (.ofPolicy o.policy)).2.modelLines leaf) ++
                    if o.statistics then Report.statisticsLines counters else []))) := by
  obtain ⟨hs, hproblem, -, -, -⟩ := Store.build_ofPolicy o.policy e
  obtain ⟨run, hrun, hsettles⟩ := Search.search_settles hs hproblem none
  rw [solve_eq_ofRun hread (hsteps ▸ hrun)]
  cases hresult : run.result with
  | proof rules =>
    have hreplay := Search.fault_replay_of_search hs hproblem hrun hresult
    obtain ⟨outcome, hok, hreports⟩ := Report.exists_ofRun_proof hresult hreplay
    exact ⟨outcome, hok, .inl ⟨hreports, rules, hresult ▸ hsettles⟩⟩
  | saturated leaf =>
    obtain ⟨outcome, hok, hreports, hlines⟩ := Report.exists_ofRun_saturated hresult
    exact ⟨outcome, hok, .inr ⟨hreports, leaf, hresult ▸ hsettles, fun houtput =>
      ⟨run.statistics, hlines houtput⟩⟩⟩
  | gaveUp =>
    rw [hresult] at hsettles
    cases hsettles with
    | gaveUp hlimit => exact absurd rfl hlimit

/-- **Reports are truthful.**  A problem that can be read is reported as `Theorem` or as
`CounterSatisfiable`, if there is no limit.  `Theorem` is reported only if no valuation makes the
left side true and the right side false.  If `CounterSatisfiable` is reported, the output shows a
branch and lines with values of atoms.

* Some reading fits them, and the problem fails under every reading that does, with the
  equivalences that the policy keeps as opaque as atoms.
* The problem fails classically under every valuation that fits them.
* If no equivalence stands on the branch, some valuation agrees with the lines, and the problem
  fails classically under every valuation that does.
* An equivalence stands on the branch only if equivalences are kept and one was written. -/
theorem reported_status_is_truthful (hsteps : o.steps = none)
    (hread : SequentExpr.read (Problem.body text) = .ok e) :
    ∃ outcome, solve o (.ok text) = .ok outcome ∧
      (outcome.Reports "Theorem" o.problemName ∨
        outcome.Reports "CounterSatisfiable" o.problemName) ∧
      (outcome.Reports "Theorem" o.problemName →
        ∀ v : String → Bool, v "false" = false → v "true" = true → ¬e.FailsUnder (Expr.eval v)) ∧
      (outcome.Reports "CounterSatisfiable" o.problemName →
        ∃ (branch : SequentExpr) (values : List String),
          (o.output = .proof → ∃ counters, outcome.lines =
            Report.statusLine "CounterSatisfiable" o.problemName ::
              Report.marked "FiniteModel" o.problemName
                (s!"% open branch: {branch.text}" :: values) ++
                  if o.statistics then Report.statisticsLines counters else []) ∧
          (∃ reading, branch.Fits values reading) ∧
          (∀ reading, branch.Fits values reading →
            e.FailsUnder (Expr.opaqueValue o.policy reading)) ∧
          (∀ v : String → Bool, branch.Fits values (Expr.eval v) → e.FailsUnder (Expr.eval v)) ∧
          (branch.hasIff = false →
            (∃ v : String → Bool, v "false" = false ∧ v "true" = true ∧ Agrees v values) ∧
            ∀ v : String → Bool, v "false" = false → v "true" = true → Agrees v values →
              e.FailsUnder (Expr.eval v)) ∧
          (branch.hasIff = true → o.policy.equivalence = .keep ∧ e.hasIff = true)) := by
  obtain ⟨outcome, hsolve, ⟨hreports, rules, hsettles⟩ | ⟨hreports, leaf, hsettles, hlines⟩⟩ :=
    exists_solve hsteps hread
  · refine ⟨outcome, hsolve, .inl hreports, fun _ v hfalse htrue hfails => ?_, fun hcounter => ?_⟩
    · rw [← SequentExpr.failsUnder_congr (Expr.opaqueValue_eval hfalse htrue o.policy)] at hfails
      exact hsettles.not_failsUnder_of_proof hfalse htrue hfails
    · exact absurd (hreports.unique hcounter) (by decide)
  · refine ⟨outcome, hsolve, .inr hreports, fun htheorem => ?_, fun _ => ?_⟩
    · exact absurd (htheorem.unique hreports) (by decide)
    · let s := (e.build (.ofPolicy o.policy)).2
      have hclassical : ∀ v : String → Bool,
          (s.written leaf).Fits (s.modelLines leaf).tail (Expr.eval v) →
            e.FailsUnder (Expr.eval v) := by
        intro v hfits
        rw [← SequentExpr.failsUnder_congr
          (Expr.opaqueValue_eval hfits.falsum hfits.verum o.policy)]
        exact hsettles.failsUnder_of_fits hfits
      refine ⟨s.written leaf, (s.modelLines leaf).tail, ?_, hsettles.exists_fits,
        fun reading hfits => hsettles.failsUnder_of_fits hfits, hclassical, fun hnone => ⟨?_, ?_⟩,
        hsettles.equivalence_of_hasIff⟩
      · rw [Store.text_written]
        exact hlines
      · obtain ⟨reading, hfits⟩ := hsettles.exists_fits
        exact ⟨fun name => reading (.atom name), hfits.falsum, hfits.verum, hfits.atoms⟩
      · intro v hfalse htrue hagrees
        exact hclassical v ((SequentExpr.fits_eval_iff hnone).2 ⟨hfalse, htrue, hagrees⟩)

/-- `a <=> b, a => ~b | c` is refuted where equivalences are expanded and implications to the false
constant become negations.  Every valuation that agrees with the output makes it fail. -/
theorem reported_status_is_truthful_for_disjunction :
    let o : Options :=
      { sequent := some "a <=> b, a => ~b | c", policy := ⟨.fromImplication, .expand⟩ }
    let e : SequentExpr := ⟨[.binary .iff (.atom "a") (.atom "b"), .atom "a"],
      [.binary .or (.not (.atom "b")) (.atom "c")]⟩
    let output := ["% SZS status CounterSatisfiable for sequent",
      "% SZS output begin FiniteModel for sequent", "% open branch: a, a, b, b => c",
      "a = true", "b = true", "c = false", "% SZS output end FiniteModel for sequent"]
    o.steps = none ∧ SequentExpr.read (Problem.body "a <=> b, a => ~b | c") = .ok e ∧
      ∃ outcome, solve o (.ok "a <=> b, a => ~b | c") = .ok outcome ∧ outcome.lines = output ∧
        (∃ v : String → Bool, e.FailsUnder (Expr.eval v)) ∧
        ∀ v : String → Bool, v "false" = false → v "true" = true → Agrees v output →
          e.FailsUnder (Expr.eval v) := by
  intro o e output
  have hread : SequentExpr.read (Problem.body "a <=> b, a => ~b | c") = .ok e := by decide +kernel
  have hlines : (solve o (.ok "a <=> b, a => ~b | c")).toOption.map (·.lines) = some output := by
    decide +kernel
  obtain ⟨outcome, hsolve, -, -, hcounter⟩ := @reported_status_is_truthful o _ _ rfl hread
  have houtput : outcome.lines = output := by simpa [hsolve, Except.toOption] using hlines
  have hreports : outcome.Reports "CounterSatisfiable" o.problemName := by
    rw [Outcome.Reports, houtput]
    rfl
  obtain ⟨branch, values, hprinted, -, -, -, hagree, hkept⟩ := hcounter hreports
  obtain ⟨counters, hshown⟩ := hprinted rfl
  have hnone : branch.hasIff = false := by
    cases hiff : branch.hasIff with
    | false => rfl
    | true => cases (hkept hiff).1
  obtain ⟨⟨v, hfalse, htrue, hv⟩, hfails⟩ := hagree hnone
  refine ⟨rfl, hread, outcome, hsolve, houtput, ⟨v, hfails v hfalse htrue hv⟩, ?_⟩
  intro w hwfalse hwtrue hw
  -- the lines with values are among those of the output
  refine hfails w hwfalse hwtrue (hw.mono fun line hline => ?_)
  rw [← houtput, hshown]
  simp [Report.marked, hline]

/-- `a <=> b => b <=> a` is valid, but reported as `CounterSatisfiable` if equivalences are kept:
the two equivalences are different. -/
theorem kept_equivalence_counterSatisfiable :
    let o : Options := { sequent := some "a <=> b => b <=> a", policy := ⟨.keep, .keep⟩ }
    ∃ e outcome, SequentExpr.read (Problem.body "a <=> b => b <=> a") = .ok e ∧
      o.steps = none ∧ solve o (.ok "a <=> b => b <=> a") = .ok outcome ∧
      outcome.Reports "CounterSatisfiable" o.problemName ∧
      ∀ v : String → Bool, ¬e.FailsUnder (Expr.eval v) := by
  intro o
  let e : SequentExpr :=
    ⟨[.binary .iff (.atom "a") (.atom "b")], [.binary .iff (.atom "b") (.atom "a")]⟩
  have hread : SequentExpr.read (Problem.body "a <=> b => b <=> a") = .ok e := by decide +kernel
  have hhead : (solve o (.ok "a <=> b => b <=> a")).toOption.map (·.lines.head?) =
      some (some (Report.statusLine "CounterSatisfiable" o.problemName)) := by
    decide +kernel
  cases hsolve : solve o (.ok "a <=> b => b <=> a") with
  | error fault =>
    rw [hsolve] at hhead
    cases hhead
  | ok outcome =>
    rw [hsolve] at hhead
    refine ⟨e, outcome, hread, rfl, rfl, Option.some.inj hhead, fun v hfails => ?_⟩
    have hleft := hfails.1 _ (List.mem_singleton_self _)
    have hright := hfails.2 _ (List.mem_singleton_self _)
    simp only [Expr.eval, BinOp.eval] at hleft hright
    cases hb : v "b" <;> simp_all

end SequentCalculus.CommandLine
