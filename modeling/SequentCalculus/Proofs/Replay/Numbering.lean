import SequentCalculus.Proofs.Search.Replay

/-!
# Printed proofs are numbered trees

A proof is printed while it is replayed.  The printer sees one inference after the other and keeps a
stack of its own, the numbers that it has promised to lines to come.  It never sees the stack of
open goals of the replay.

`Printed` says what is printed if the two are one stack, on which every number lies with the goal
that it was given to.  For a proof that is accepted they are (`printed_numberFrom`): each rule takes
off one goal and one number, and puts on its subgoals and as many numbers.  Only the number of the
problem is not promised by any line, and the printer makes it up (`numberFrom_fresh`).

All else is read off `Printed`, by induction.  The numbers that are named as children are given out
without gaps (`Printed.flatMap_children`), every line has a number that lies on the stack or is
named as a child (`Printed.perm_number`), and a number that lies on the stack gets its line, which
shows the goal that it lies with (`Printed.exists_line`).
-/

namespace SequentCalculus

/-! ### Two stacks -/

theorem numberFrom_cons (used number : Nat) (pending : List Nat) (inference : Inference)
    (inferences : List Inference) :
    numberFrom used (number :: pending) (inference :: inferences) =
      ⟨number, inference, List.range' (used + 1) inference.subgoals.length⟩ ::
        numberFrom (used + inference.subgoals.length)
          (List.range' (used + 1) inference.subgoals.length ++ pending) inferences := by
  simp [numberFrom]

/-- Where no number is promised, the next one is taken. -/
theorem numberFrom_fresh (used : Nat) (inferences : List Inference) :
    numberFrom used [] inferences = numberFrom (used + 1) [used + 1] inferences := by
  cases inferences with
  | nil => rfl
  | cons inference inferences => simp [numberFrom]

theorem map_inference_numberFrom (used : Nat) (pending : List Nat) (inferences : List Inference) :
    (numberFrom used pending inferences).map (·.inference) = inferences := by
  induction inferences generalizing used pending with
  | nil => rfl
  | cons inference inferences ih => rw [numberFrom, List.map_cons, ih]

/-- **What is printed**, where `used` numbers are taken, for open goals and the numbers of the lines
that are to show them. -/
inductive Printed (s : Store) : Nat → List (Nat × Sequent) → List ProofLine → Prop
  | done (used : Nat) : Printed s used [] []
  | line {used number : Nat} {inference : Inference} {pending : List (Nat × Sequent)}
      {lines : List ProofLine} (hjustified : inference.Justified s)
      (hrest : Printed s (used + inference.subgoals.length)
        ((List.range' (used + 1) inference.subgoals.length).zip inference.subgoals ++ pending)
        lines) :
      Printed s used ((number, inference.goal) :: pending)
        (⟨number, inference, List.range' (used + 1) inference.subgoals.length⟩ :: lines)

/-- The first rule of an accepted list, with its subgoals. -/
theorem Replay.exists_cons_of_accepted {s : Store} {goal : Sequent} {goals : List Sequent}
    {rule : Rule} {rules : List Rule}
    (h : (ofGoals s (goal :: goals) (rule :: rules)).fault = none) :
    ∃ subgoals, Inference.Justified s ⟨goal, rule, subgoals⟩ ∧
      ofGoals s (goal :: goals) (rule :: rules) =
        (ofGoals s (subgoals ++ goals) rules).cons ⟨goal, rule, subgoals⟩ ∧
      (ofGoals s (subgoals ++ goals) rules).fault = none := by
  rcases cases_of_fault_eq_none h with ⟨rfl, hax, hrest⟩ | ⟨premises, hinfers, hrest⟩
  · exact ⟨[], .inl ⟨rfl, hax, rfl⟩, ofGoals_ax hax, hrest⟩
  · exact ⟨premises, .inr hinfers, ofGoals_infer hinfers, hrest⟩

/-- **The stack of the printer mirrors that of the replay.** -/
theorem printed_numberFrom {s : Store} {goals : List Sequent} {rules : List Rule}
    (h : (Replay.ofGoals s goals rules).fault = none) (used : Nat) {pending : List Nat}
    (hlength : pending.length = goals.length) :
    Printed s used (pending.zip goals)
      (numberFrom used pending (Replay.ofGoals s goals rules).inferences) := by
  induction rules generalizing goals used pending with
  | nil =>
    cases goals with
    | nil =>
      obtain rfl := List.length_eq_zero_iff.1 hlength
      exact .done used
    | cons goal goals => cases h
  | cons rule rules ih =>
    cases goals with
    | nil => cases h
    | cons goal goals =>
      cases pending with
      | nil => cases hlength
      | cons number pending =>
        obtain ⟨subgoals, hjustified, hreplay, hrest⟩ := Replay.exists_cons_of_accepted h
        rw [hreplay, Replay.cons, numberFrom_cons, List.zip_cons_cons]
        refine .line hjustified ?_
        -- as many numbers as subgoals are put on
        rw [← List.zip_append (by simp)]
        exact ih hrest _ (by simpa using hlength)

/-! ### Numbers -/

namespace Printed

variable {s : Store} {used : Nat} {pending : List (Nat × Sequent)} {lines : List ProofLine}

/-- The numbers that are named as children are given out one after the other. -/
theorem flatMap_children (h : Printed s used pending lines) :
    lines.flatMap (·.children) =
      List.range' (used + 1) (lines.flatMap (·.children)).length := by
  induction h with
  | done => rfl
  | line hjustified hrest ih =>
    rw [List.flatMap_cons, List.length_append, List.length_range', ← List.range'_append_1]
    rw [Nat.add_right_comm, ← ih]

/-- Lines have the numbers that lie on the stack or that are named as children. -/
theorem perm_number (h : Printed s used pending lines) :
    (lines.map (·.number)).Perm (pending.map (·.1) ++ lines.flatMap (·.children)) := by
  induction h with
  | done => exact .nil
  | @line used number inference pending lines hjustified hrest ih =>
    rw [List.map_append, List.map_fst_zip (by simp)] at ih
    refine (ih.cons number).trans ?_
    -- the children are taken from the stack to the numbers that are named
    rw [List.map_cons, List.flatMap_cons, List.cons_append, ← List.append_assoc]
    exact (List.perm_append_comm.append_right _).cons number

/-- A number that lies on the stack gets its line. -/
theorem exists_line (h : Printed s used pending lines) {number : Nat} {goal : Sequent}
    (hmem : (number, goal) ∈ pending) :
    ∃ line ∈ lines, line.number = number ∧ line.inference.goal = goal := by
  induction h with
  | done => cases hmem
  | line hjustified hrest ih =>
    rcases List.mem_cons.1 hmem with heq | hmem
    · obtain ⟨rfl, rfl⟩ := Prod.mk.inj heq
      exact ⟨_, List.mem_cons_self, rfl, rfl⟩
    · obtain ⟨line, hline, hnumber⟩ := ih (List.mem_append_right _ hmem)
      exact ⟨line, List.mem_cons_of_mem _ hline, hnumber⟩

/-- After a line, its children lie on the stack with its subgoals. -/
theorem after {before after : List ProofLine} {line : ProofLine}
    (h : Printed s used pending (before ++ line :: after)) :
    line.inference.Justified s ∧ line.children.length = line.inference.subgoals.length ∧
      ∃ used' others, Printed s used' (line.children.zip line.inference.subgoals ++ others)
        after := by
  induction before generalizing used pending with
  | nil =>
    cases h with
    | line hjustified hrest => exact ⟨hjustified, List.length_range', _, _, hrest⟩
  | cons first before ih =>
    cases h with
    | line hjustified hrest => exact ih hrest

/-- **A child is named before its own line**, which shows the subgoal that it stands for. -/
theorem exists_own {before after : List ProofLine} {line : ProofLine} {c : Nat}
    (h : Printed s used pending (before ++ line :: after)) (hc : c ∈ line.children) :
    ∃ own ∈ after, own.number = c ∧
      (c, own.inference.goal) ∈ line.children.zip line.inference.subgoals := by
  obtain ⟨-, hlength, used', others, hafter⟩ := h.after
  obtain ⟨j, hj, rfl⟩ := List.mem_iff_getElem.1 hc
  have hpair : (line.children[j], line.inference.subgoals[j]) ∈
      line.children.zip line.inference.subgoals := by
    rw [← List.getElem_zip (h := by simp; omega)]
    exact List.getElem_mem _
  obtain ⟨own, hown, hnumber, hgoal⟩ := hafter.exists_line (List.mem_append_left others hpair)
  exact ⟨own, hown, hnumber, hgoal ▸ hpair⟩

/-- **A child is named by one line only.** -/
theorem notMem_children {before after : List ProofLine} {line : ProofLine} {c : Nat}
    (h : Printed s used pending (before ++ line :: after)) (hc : c ∈ line.children) :
    ∀ other ∈ before ++ after, c ∉ other.children := by
  intro other hother hcother
  have hnodup : ((before ++ line :: after).flatMap (·.children)).Nodup := by
    rw [h.flatMap_children]
    exact List.nodup_range'
  rw [(List.perm_middle.flatMap_right _).nodup_iff, List.flatMap_cons] at hnodup
  exact (List.nodup_append.1 hnodup).2.2 c hc c (List.mem_flatMap.2 ⟨other, hother, hcother⟩) rfl

theorem head {number : Nat} {goal : Sequent}
    (h : Printed s used ((number, goal) :: pending) lines) :
    ∃ first, lines.head? = some first ∧ first.number = number ∧ first.inference.goal = goal := by
  cases h with
  | line => exact ⟨_, rfl, rfl, rfl⟩

/-- Every line but the first is named as a child. -/
theorem length_eq_of_singleton {number : Nat} {goal : Sequent}
    (h : Printed s used [(number, goal)] lines) :
    lines.length = (lines.flatMap (·.children)).length + 1 := by
  simpa [Nat.add_comm] using h.perm_number.length_eq

end Printed

/-! ### Texts -/

/-- All lines are written alike, since those without children are the lines of the closing rule. -/
theorem Inference.Justified.proofLineText_eq {s : Store} {line : ProofLine}
    (h : line.inference.Justified s)
    (hlength : line.children.length = line.inference.subgoals.length) :
    s.proofLineText line =
      s!"{line.number}. {s.sequentText line.inference.goal}    [{s.ruleText line.inference.rule}]"
        ++ if line.children = [] then ""
          else " -> " ++ ", ".intercalate (line.children.map toString) := by
  obtain ⟨number, ⟨goal, rule, subgoals⟩, children⟩ := line
  rcases h with ⟨rfl, -, rfl⟩ | hinfers
  · obtain rfl := List.length_eq_zero_iff.1 hlength
    have hax : "    [AX]" = "    [" ++ (s.ruleText .ax ++ "]") := rfl
    simp only [Store.proofLineText, hax, if_true, String.append_assoc, String.append_empty]
    rfl
  · have hchildren : children ≠ [] := by
      rintro rfl
      cases hinfers <;> cases hlength
    have hrule : rule ≠ .ax := by
      rintro rfl
      cases hinfers
    have harrow : "] -> " = "]" ++ " -> " := rfl
    simp only [Store.proofLineText, harrow, if_neg hchildren, String.append_assoc]
    rfl

/-! ### Proofs -/

theorem Store.printed_lines {s : Store} {problem : Sequent} {rules : List Rule}
    (h : (s.replay problem rules).fault = none) :
    Printed s 1 [(1, problem)] (s.replay problem rules).lines := by
  rw [Replay.lines, numberFrom_fresh]
  have hlength : [1].length = [problem].length := rfl
  exact printed_numberFrom h 1 hlength

theorem Replay.map_rule_lines {s : Store} {problem : Sequent} {rules : List Rule}
    (h : (s.replay problem rules).fault = none) :
    (s.replay problem rules).lines.map (·.inference.rule) = rules := by
  calc (s.replay problem rules).lines.map (·.inference.rule)
      = ((s.replay problem rules).lines.map (·.inference)).map (·.rule) := by
        rw [List.map_map]
        rfl
    _ = (s.replay problem rules).inferences.map (·.rule) := by
        rw [lines, map_inference_numberFrom]
    _ = rules := (reports_of_accepted h).1

/-- **Printed proofs are numbered trees.**  There is a line for every rule, and the lines are
numbered from 1 on, the first one being that of the problem.  Every other number is named as a child
by exactly one line, and stands on a later line, which shows the subgoal that it was named for. -/
theorem printed_proofs_are_numbered_trees {s : Store} {problem : Sequent} {rules : List Rule}
    (h : (s.replay problem rules).fault = none) :
    let lines := (s.replay problem rules).lines
    lines.length = rules.length ∧ lines.map (·.inference.rule) = rules ∧
    (lines.map (·.number)).Perm (List.range' 1 rules.length) ∧
    (∃ first, lines.head? = some first ∧ first.number = 1 ∧ first.inference.goal = problem) ∧
    (∀ line ∈ lines, line.inference.Justified s ∧
      line.children.length = line.inference.subgoals.length ∧
      s.proofLineText line =
        s!"{line.number}. {s.sequentText line.inference.goal}    [{s.ruleText line.inference.rule}]"
          ++ if line.children = [] then ""
            else " -> " ++ ", ".intercalate (line.children.map toString)) ∧
    ∀ c, 1 < c → c ≤ rules.length → ∃ before line after, lines = before ++ line :: after ∧
      c ∈ line.children ∧ (∀ other ∈ before ++ after, c ∉ other.children) ∧
      ∃ own ∈ after, own.number = c ∧
        (c, own.inference.goal) ∈ line.children.zip line.inference.subgoals := by
  intro lines
  have hprinted : Printed s 1 [(1, problem)] lines := Store.printed_lines h
  have hrules : lines.map (·.inference.rule) = rules := Replay.map_rule_lines h
  have hlength : lines.length = rules.length := by
    simpa using congrArg List.length hrules
  have hcount := hprinted.length_eq_of_singleton
  have hchildren := hprinted.flatMap_children
  refine ⟨hlength, hrules, ?_, hprinted.head, fun line hline => ?_, fun c hc hcle => ?_⟩
  · rw [← hlength, hcount, List.range'_succ, ← hchildren]
    exact hprinted.perm_number
  · obtain ⟨before, after, hsplit⟩ := List.append_of_mem hline
    obtain ⟨hjustified, hsame, -⟩ := (hsplit ▸ hprinted).after
    exact ⟨hjustified, hsame, hjustified.proofLineText_eq hsame⟩
  · have hnamed : c ∈ lines.flatMap (·.children) := by
      rw [hchildren, List.mem_range'_1]
      omega
    obtain ⟨line, hline, hmem⟩ := List.mem_flatMap.1 hnamed
    obtain ⟨before, after, hsplit⟩ := List.append_of_mem hline
    rw [hsplit] at hprinted
    exact ⟨before, line, after, hsplit, hmem, hprinted.notMem_children hmem,
      hprinted.exists_own hmem⟩

/-- The proof of `p | q => q | p` splits first, so that its fourth line has number 3. -/
theorem printed_proof_of_swapped_disjunction :
    let problem : SequentExpr :=
      ⟨[.binary .or (.atom "p") (.atom "q")], [.binary .or (.atom "q") (.atom "p")]⟩
    let built := problem.build (.ofPolicy {})
    let split : Rule := .logical .left .or ⟨4, .compound (.bin .or)⟩
    let join : Rule := .logical .right .or ⟨5, .compound (.bin .or)⟩
    let rules := [split, join, .ax, join, .ax]
    let lines := (built.2.replay built.1 rules).lines
    (built.2.replay built.1 rules).fault = none ∧ lines.map (·.number) = [1, 2, 4, 3, 5] ∧
      lines.map (·.children) = [[2, 3], [4], [], [5], []] ∧
      lines.map built.2.proofLineText =
        ["1. (p | q) => (q | p)    [LEFT_OR (p | q)] -> 2, 3",
          "2. p => (q | p)    [RIGHT_OR (q | p)] -> 4",
          "4. p => p, q    [AX]",
          "3. q => (q | p)    [RIGHT_OR (q | p)] -> 5",
          "5. q => p, q    [AX]"] ∧
      (lines.map (·.number)).Perm (List.range' 1 5) ∧
      ∃ before line after, lines = before ++ line :: after ∧ 3 ∈ line.children ∧
        (∀ other ∈ before ++ after, 3 ∉ other.children) ∧
        ∃ own ∈ after, own.number = 3 ∧
          (3, own.inference.goal) ∈ line.children.zip line.inference.subgoals := by
  intro problem built split join rules lines
  have haccepted : (built.2.replay built.1 rules).fault = none := by decide
  obtain ⟨-, -, hperm, -, -, hnamed⟩ := printed_proofs_are_numbered_trees haccepted
  exact ⟨haccepted, by decide, by decide, by decide +kernel, hperm,
    hnamed 3 (by decide) (by decide)⟩

end SequentCalculus
