import SequentCalculus.Proofs.Reading.Blank
import SequentCalculus.Proofs.Reading.Exact

/-!
# The texts of formulas and sequents

A text is read if and only if it is one of the grammar within the limits, and it is read as the only
tree that the grammar gives it (`Expr.read_eq_ok_iff_legibleFrom`, `Expr.LegibleFrom.unique`).  This
joins what is known of scanning with what is known of reading tokens.  There are texts of every
nesting and of every height (`writtenAs_negations`, `writtenAs_conjunction`), so both limits count.

For sequents the same is shown of cedents first, again in two steps.  The formulas of a cedent are
read as far as the limits allow (`DerivesSide.found_cedent`), and what is read as a cedent is one
(`exists_derives_of_cedent`).
-/

namespace SequentCalculus

namespace Reading

variable {m n : Nat} {ts us rest : List Token} {e : Expr} {es : List Expr}

/-! ### What is found of a cedent -/

/-- A side of a sequent ends here, at `=>` or with the text. -/
def SideEnds (rest : List Token) : Prop :=
  ∀ t ∈ rest.head?, t = .turnstile

theorem sideEnds_nil : SideEnds [] :=
  fun _ ht => (nomatch ht)

theorem sideEnds_turnstile (rs : List Token) : SideEnds (.turnstile :: rs) :=
  fun _ ht => (Option.some.inj ht).symm

/-- A formula and those that follow it, each after a comma. -/
def listed (ts : List Token) : Option (List Expr × List Token) :=
  (found (formula ts)).bind fun p =>
    (found (formulasAfter p.2)).map fun q => (p.1 :: q.1, q.2)

theorem found_formulasAfter_comma : found (formulasAfter (.comma :: ts)) = listed ts := by
  rw [formulasAfter, listed]
  cases formula ts with
  | none => rfl
  | some first =>
    simp only [found_some, Option.bind_some]
    cases formulasAfter first.rest <;> rfl

theorem found_formulasAfter_of_head (h : ts.head? ≠ some .comma) :
    found (formulasAfter ts) = some ([], ts) := by
  rw [formulasAfter.eq_def]
  split
  · exact absurd rfl h
  · rfl

/-- A side that ends where it begins has no formulas. -/
theorem found_cedent_of_sideEnds (h : SideEnds ts) :
    found (cedent ts) = some ([], ts) := by
  cases ts with
  | nil => rfl
  | cons t ts =>
    obtain rfl : t = .turnstile := h t rfl
    rfl

/-- Any other side begins with a formula. -/
theorem found_cedent_of_head {t : Token} (ht : t ≠ .turnstile) :
    found (cedent (t :: ts)) = listed (t :: ts) := by
  rw [cedent, listed]
  · cases formula (t :: ts) with
    | none => rfl
    | some first =>
      simp only [found_some, Option.bind_some]
      cases formulasAfter first.rest <;> rfl
  · simp
  · intro rest heq
    exact ht (List.cons.inj heq).1

/-! ### Derived cedents are read -/

/-- Expressions, unless one of them is too high or the most nested one is too nested. -/
def withinAll (n : Nat) (es : List Expr) : Option (List Expr) :=
  if n ≤ maxNesting ∧ ∀ e ∈ es, e.height ≤ maxHeight then some es else none

theorem withinAll_eq_some_iff {as : List Expr} :
    withinAll n es = some as ↔ (n ≤ maxNesting ∧ ∀ e ∈ es, e.height ≤ maxHeight) ∧ es = as := by
  rw [withinAll, Option.ite_none_right_eq_some, Option.some_inj]

theorem within_map_singleton :
    (within (maxNesting + 1) n e).map (fun a => [a]) = withinAll n [e] := by
  ext as
  simp only [Option.map_eq_some_iff, within_eq_some_iff, withinAll_eq_some_iff, Nat.lt_succ_iff,
    List.forall_mem_singleton]
  constructor
  · rintro ⟨_, ⟨hlimits, rfl⟩, rfl⟩
    exact ⟨hlimits, rfl⟩
  · rintro ⟨hlimits, rfl⟩
    exact ⟨e, ⟨hlimits, rfl⟩, rfl⟩

/-- The first formula and the others are within the limits together. -/
theorem within_bind_cons :
    ((within (maxNesting + 1) m e).bind fun a => (withinAll n es).map fun as => a :: as) =
      withinAll (max m n) (e :: es) := by
  ext as
  simp only [Option.bind_eq_some_iff, Option.map_eq_some_iff, within_eq_some_iff,
    withinAll_eq_some_iff, Nat.lt_succ_iff, List.forall_mem_cons, Nat.max_le]
  constructor
  · rintro ⟨_, ⟨⟨hm, he⟩, rfl⟩, _, ⟨⟨hn, hes⟩, rfl⟩, rfl⟩
    exact ⟨⟨⟨hm, hn⟩, he, hes⟩, rfl⟩
  · rintro ⟨⟨⟨hm, hn⟩, he, hes⟩, rfl⟩
    exact ⟨e, ⟨⟨hm, he⟩, rfl⟩, es, ⟨⟨hn, hes⟩, rfl⟩, rfl⟩

/-- A phrase begins with a token of its own, which is not `=>`. -/
theorem Derives.exists_head {phrase : Phrase} (h : Derives phrase n us e) :
    ∃ t vs, us = t :: vs ∧ t ≠ .turnstile := by
  induction h with
  | formula_implies _ ih | implies_or _ ih | or_and _ ih | and_unary _ ih => exact ih
  | formula_iff _ _ ih | implies_implies _ _ ih | or_or _ _ ih | and_and _ _ ih =>
    obtain ⟨t, vs, rfl, ht⟩ := ih
    exact ⟨t, _, List.cons_append, ht⟩
  | unary_not | unary_paren | unary_falsum | unary_verum | unary_ident =>
    exact ⟨_, _, rfl, by simp⟩

theorem DerivesCedent.exists_head (h : DerivesCedent n us es) :
    ∃ t vs, us = t :: vs ∧ t ≠ .turnstile := by
  cases h with
  | single h => exact h.exists_head
  | cons h hs =>
    obtain ⟨t, vs, rfl, ht⟩ := h.exists_head
    exact ⟨t, _, List.cons_append, ht⟩

/-- The formulas of a cedent are read one after the other, unless one of them is beyond the
limits. -/
theorem DerivesCedent.listed_append (h : DerivesCedent n us es) (hrest : SideEnds rest) :
    listed (us ++ rest) = (withinAll n es).map fun as => (as, rest) := by
  induction h with
  | @single n us e h =>
    -- after the last formula there is neither an operator nor a comma
    have hends : Phrase.EndsBefore .formula rest := by
      intro o ho hhead
      cases hrest _ hhead
    have hcomma : rest.head? ≠ some .comma := by
      intro hhead
      cases hrest _ hhead
    rw [listed, h.found_formula hends, ← within_map_singleton, Option.bind_map, Option.map_map,
      Option.map_eq_bind]
    refine Option.bind_congr fun a _ => ?_
    simp only [Function.comp_apply, found_formulasAfter_of_head hcomma, Option.map_some]
  | @cons m n us vs e es h hs ih =>
    have hends : Phrase.EndsBefore .formula (.comma :: (vs ++ rest)) := by
      intro o ho hhead
      cases hhead
    rw [List.append_assoc, List.cons_append, listed, h.found_formula hends, Option.bind_map,
      ← within_bind_cons, Option.map_bind]
    refine Option.bind_congr fun a _ => ?_
    simp only [Function.comp_apply, found_formulasAfter_comma, ih, Option.map_map]
    rfl

/-- **A side of a sequent is read** if its formulas are within the limits, and not otherwise. -/
theorem DerivesSide.found_cedent (h : DerivesSide n us es) (hrest : SideEnds rest) :
    found (Reading.cedent (us ++ rest)) = (withinAll n es).map fun as => (as, rest) := by
  cases h with
  | empty =>
    rw [List.nil_append, found_cedent_of_sideEnds hrest]
    simp [withinAll]
  | cedent h =>
    have hlisted := h.listed_append hrest
    obtain ⟨t, vs, rfl, ht⟩ := h.exists_head
    rw [← hlisted, List.cons_append, found_cedent_of_head ht]

theorem DerivesSide.found_cedent_eq_some_iff (h : DerivesSide n us es) (hrest : SideEnds rest)
    (as : List Expr) (rest' : List Token) :
    found (Reading.cedent (us ++ rest)) = some (as, rest') ↔
      (n ≤ maxNesting ∧ ∀ e ∈ es, e.height ≤ maxHeight) ∧ es = as ∧ rest = rest' := by
  rw [h.found_cedent hrest, Option.map_eq_some_iff]
  simp only [withinAll_eq_some_iff, Prod.mk.injEq]
  constructor
  · rintro ⟨_, ⟨hlimits, rfl⟩, rfl, rfl⟩
    exact ⟨hlimits, rfl, rfl⟩
  · rintro ⟨hlimits, rfl, rfl⟩
    exact ⟨es, ⟨hlimits, rfl⟩, rfl, rfl⟩

/-! ### Cedents that are read are derived -/

/-- Formulas that are read one after the other are a cedent. -/
theorem exists_derives_of_listed (h : listed ts = some (es, rest)) :
    ∃ us n, ts = us ++ rest ∧ DerivesCedent n us es ∧ n ≤ maxNesting ∧
      ∀ e ∈ es, e.height ≤ maxHeight := by
  -- by induction on the number of tokens, of which a formula and a comma take some
  induction hlen : ts.length using Nat.strongRecOn generalizing ts es with
  | ind len ih =>
    obtain ⟨⟨e, rest'⟩, he, hrest⟩ := Option.bind_eq_some_iff.1 h
    obtain ⟨⟨others, _⟩, hothers, heq⟩ := Option.map_eq_some_iff.1 hrest
    cases heq
    obtain ⟨us, m, rfl, he', hm, hheight⟩ := finds_formula he
    have hm := Nat.le_of_lt_succ hm
    by_cases hhead : rest'.head? = some .comma
    · obtain ⟨ts, rfl⟩ := List.head?_eq_some_iff.1 hhead
      rw [found_formulasAfter_comma] at hothers
      have hshorter : ts.length < len := by
        rw [← hlen, List.length_append, List.length_cons]
        omega
      obtain ⟨vs, n, rfl, hs, hn, hheights⟩ := ih _ hshorter hothers rfl
      exact ⟨us ++ .comma :: vs, max m n, by simp, .cons he' hs, Nat.max_le.2 ⟨hm, hn⟩,
        List.forall_mem_cons.2 ⟨hheight, hheights⟩⟩
    · rw [found_formulasAfter_of_head hhead] at hothers
      cases hothers
      exact ⟨us, m, rfl, .single he', hm, List.forall_mem_singleton.2 hheight⟩

theorem exists_derives_of_cedent (h : found (cedent ts) = some (es, rest)) :
    ∃ us n, ts = us ++ rest ∧ DerivesSide n us es ∧ n ≤ maxNesting ∧
      ∀ e ∈ es, e.height ≤ maxHeight := by
  by_cases hends : SideEnds ts
  · rw [found_cedent_of_sideEnds hends] at h
    cases h
    exact ⟨[], 0, rfl, .empty, Nat.zero_le _, fun _ he => absurd he List.not_mem_nil⟩
  · cases ts with
    | nil => exact absurd sideEnds_nil hends
    | cons t ts =>
      have ht : t ≠ .turnstile := by
        rintro rfl
        exact hends (sideEnds_turnstile ts)
      rw [found_cedent_of_head ht] at h
      obtain ⟨us, n, hus, hs, hlimits⟩ := exists_derives_of_listed h
      exact ⟨us, n, hus, .cedent hs, hlimits⟩

end Reading

open Reading

variable {ts : List Token} {q : SequentExpr}

/-! ### Sequents -/

namespace SequentExpr

theorem ofTokens?_eq_some_iff : ofTokens? ts = some q ↔
    (q.left = [] ∧ found (cedent ts) = some (q.right, [])) ∨
      ∃ rs, found (cedent ts) = some (q.left, .turnstile :: rs) ∧
        found (cedent rs) = some (q.right, []) := by
  obtain ⟨left, right⟩ := q
  simp only [found_eq_some_iff]
  constructor
  · intro h
    unfold ofTokens? at h
    split at h
    · cases h
    · -- the text ends after the first side, which is the right one
      rename_i heq
      cases h
      exact .inl ⟨rfl, _, heq⟩
    · rename_i rs _ heq
      split at h
      · rename_i heq'
        cases h
        exact .inr ⟨rs, ⟨_, heq⟩, _, heq'⟩
      · cases h
    · cases h
  · rintro (⟨rfl, _, heq⟩ | ⟨rs, ⟨_, heq⟩, _, heq'⟩)
    · rw [ofTokens?, heq]
    · rw [ofTokens?, heq]
      simp only [heq']

/-- A sequent that was read has a derivation within the limits. -/
theorem derives_of_ofTokens? (h : ofTokens? ts = some q) :
    ∃ n, DerivesSequent n ts q ∧ n ≤ maxNesting ∧
      ∀ e ∈ q.left ++ q.right, e.height ≤ maxHeight := by
  rcases ofTokens?_eq_some_iff.1 h with ⟨hleft, hright⟩ | ⟨rs, hleft, hright⟩
  · obtain ⟨us, n, rfl, hside, hn, hheights⟩ := exists_derives_of_cedent hright
    obtain ⟨left, right⟩ := q
    obtain rfl : left = [] := hleft
    rw [List.append_nil]
    exact ⟨n, .right hside, hn, hheights⟩
  · obtain ⟨us, m, rfl, hl, hm, hlefts⟩ := exists_derives_of_cedent hleft
    obtain ⟨vs, n, rfl, hr, hn, hrights⟩ := exists_derives_of_cedent hright
    rw [List.append_nil]
    exact ⟨max m n, .both hl hr, Nat.max_le.2 ⟨hm, hn⟩, List.forall_mem_append.2 ⟨hlefts, hrights⟩⟩

end SequentExpr

/-- **Tokens of a sequent are read as that sequent**, if its formulas are within the limits, and
are not read otherwise. -/
theorem Reading.DerivesSequent.ofTokens?_eq_some_iff {n : Nat} {q' : SequentExpr}
    (h : DerivesSequent n ts q) : SequentExpr.ofTokens? ts = some q' ↔
      (n ≤ maxNesting ∧ ∀ e ∈ q.left ++ q.right, e.height ≤ maxHeight) ∧ q = q' := by
  obtain ⟨left', right'⟩ := q'
  rw [SequentExpr.ofTokens?_eq_some_iff]
  cases h with
  | right h =>
    have hcedent := h.found_cedent_eq_some_iff sideEnds_nil
    rw [List.append_nil] at hcedent
    simp only [hcedent, List.nil_append, SequentExpr.mk.injEq]
    -- no `=>` is left that could begin another side
    constructor
    · rintro (⟨rfl, hlimits, rfl, -⟩ | ⟨rs, ⟨-, -, heq⟩, -⟩)
      · exact ⟨hlimits, rfl, rfl⟩
      · cases heq
    · rintro ⟨hlimits, rfl, rfl⟩
      exact .inl ⟨rfl, hlimits, rfl, trivial⟩
  | @both m n ls rs l r hl hr =>
    have hleft := hl.found_cedent_eq_some_iff (sideEnds_turnstile rs)
    have hright := hr.found_cedent_eq_some_iff sideEnds_nil
    rw [List.append_nil] at hright
    simp only [hleft, SequentExpr.mk.injEq, Nat.max_le, List.forall_mem_append]
    -- the left side is read up to `=>`, and no further
    constructor
    · rintro (⟨-, -, -, heq⟩ | ⟨rs', ⟨⟨hm, hlefts⟩, rfl, heq⟩, hrs⟩)
      · cases heq
      · obtain ⟨-, rfl⟩ := List.cons.inj heq
        obtain ⟨⟨hn, hrights⟩, rfl, -⟩ := (hright _ _).1 hrs
        exact ⟨⟨⟨hm, hn⟩, hlefts, hrights⟩, rfl, rfl⟩
    · rintro ⟨⟨⟨hm, hn⟩, hlefts, hrights⟩, rfl, rfl⟩
      exact .inr ⟨_, ⟨⟨hm, hlefts⟩, rfl, rfl⟩, (hright _ _).2 ⟨⟨hn, hrights⟩, rfl, rfl⟩⟩

/-! ### Texts -/

/-- An expression and all that it is made of. -/
def Expr.subexpressions : Expr → List Expr
  | .falsum => [.falsum]
  | .verum => [.verum]
  | .atom name => [.atom name]
  | .not a => .not a :: a.subexpressions
  | .binary op a b => .binary op a b :: (a.subexpressions ++ b.subexpressions)

/-- The limit on the height is one on every part, since no part is higher than the whole. -/
theorem Expr.forall_mem_subexpressions_height_le {e : Expr} {bound : Nat} :
    (∀ a ∈ e.subexpressions, a.height ≤ bound) ↔ e.height ≤ bound := by
  induction e with
  | falsum | verum | atom => simp [subexpressions]
  | not a ih =>
    simp only [subexpressions, List.forall_mem_cons, ih, height]
    omega
  | binary op a b iha ihb =>
    simp only [subexpressions, List.forall_mem_cons, List.forall_mem_append, iha, ihb, height]
    omega

section Formulas

variable {text : String} {n : Nat} {e e' : Expr}

/-- The text is a `formula` of the grammar with this tree and this nesting. -/
def Expr.WrittenAs (e : Expr) (text : String) (n : Nat) : Prop :=
  ∃ ts, Token.Spells text.toList ts ∧ Derives .formula n ts e

/-- The text is a `formula` of the grammar with this tree, within the limits. -/
def Expr.LegibleFrom (e : Expr) (text : String) : Prop :=
  ∃ n ≤ maxNesting, e.WrittenAs text n ∧ ∀ a ∈ e.subexpressions, a.height ≤ maxHeight

theorem Expr.read_eq_ok_iff :
    read text = .ok e ↔ ∃ ts, Token.Spells text.toList ts ∧ ofTokens? ts = some e := by
  simp only [← Token.scan_eq_some_iff]
  rw [← Option.bind_eq_some_iff, read]
  cases (Token.scan text.toList).bind ofTokens? <;> simp

/-- A text of the grammar is read as its tree, or is beyond the limits. -/
theorem Expr.WrittenAs.read_eq_ok_iff (h : e.WrittenAs text n) :
    read text = .ok e' ↔ (n ≤ maxNesting ∧ e.height ≤ maxHeight) ∧ e = e' := by
  obtain ⟨ts, hspells, hderives⟩ := h
  have hread : read text = .ok e' ↔ ofTokens? ts = some e' := by
    simp only [Expr.read_eq_ok_iff, ← Token.scan_eq_some_iff, Token.scan_eq_some_iff.2 hspells,
      Option.some_inj, exists_eq_left']
  rw [hread, hderives.ofTokens?, within_eq_some_iff, Nat.lt_succ_iff]

/-- **A formula is read as the tree that the grammar gives it**, if it is within the limits. -/
theorem Expr.read_eq_ok_iff_legibleFrom : read text = .ok e ↔ e.LegibleFrom text := by
  unfold LegibleFrom
  simp only [forall_mem_subexpressions_height_le]
  constructor
  · intro h
    obtain ⟨ts, hspells, htokens⟩ := Expr.read_eq_ok_iff.1 h
    obtain ⟨n, hderives, hn, hheight⟩ := derives_of_ofTokens? htokens
    exact ⟨n, hn, ⟨ts, hspells, hderives⟩, hheight⟩
  · rintro ⟨n, hn, hwritten, hheight⟩
    exact hwritten.read_eq_ok_iff.2 ⟨⟨hn, hheight⟩, rfl⟩

/-- A text that can be read has no second tree. -/
theorem Expr.LegibleFrom.unique (h : e.LegibleFrom text) (h' : e'.WrittenAs text n) : e' = e :=
  (h'.read_eq_ok_iff.1 (read_eq_ok_iff_legibleFrom.2 h)).2

theorem Expr.read_eq_error_iff {error : InputError} :
    read text = .error error ↔ error = .malformed text ∧ ∀ e, read text ≠ .ok e := by
  unfold read
  split <;> simp [eq_comm]

end Formulas

section Sequents

variable {text : String} {n : Nat} {q q' : SequentExpr}

/-- The text is a `sequent` of the grammar with these expressions on its sides, the most nested of
which has this nesting. -/
def SequentExpr.WrittenAs (q : SequentExpr) (text : String) (n : Nat) : Prop :=
  ∃ ts, Token.Spells text.toList ts ∧ DerivesSequent n ts q

/-- The text is a `sequent` of the grammar with these expressions on its sides, each within the
limits. -/
def SequentExpr.LegibleFrom (q : SequentExpr) (text : String) : Prop :=
  ∃ n ≤ maxNesting, q.WrittenAs text n ∧
    ∀ e ∈ q.left ++ q.right, ∀ a ∈ e.subexpressions, a.height ≤ maxHeight

theorem SequentExpr.WrittenAs.read_eq_ok_iff (h : q.WrittenAs text n) : read text = .ok q' ↔
    (n ≤ maxNesting ∧ ∀ e ∈ q.left ++ q.right, e.height ≤ maxHeight) ∧ q = q' := by
  obtain ⟨ts, hspells, hderives⟩ := h
  rw [SequentExpr.read_eq_ok_iff, Token.scan_eq_some_iff.2 hspells]
  simp only [Option.some_inj, exists_eq_left', hderives.ofTokens?_eq_some_iff]

/-- **A sequent is read as the sides that the grammar gives it**, if they are within the limits. -/
theorem SequentExpr.read_eq_ok_iff_legibleFrom : read text = .ok q ↔ q.LegibleFrom text := by
  unfold LegibleFrom
  simp only [Expr.forall_mem_subexpressions_height_le]
  constructor
  · intro h
    obtain ⟨ts, hscan, htokens⟩ := SequentExpr.read_eq_ok_iff.1 h
    obtain ⟨n, hderives, hn, hheights⟩ := derives_of_ofTokens? htokens
    exact ⟨n, hn, ⟨ts, Token.scan_eq_some_iff.1 hscan, hderives⟩, hheights⟩
  · rintro ⟨n, hn, hwritten, hheights⟩
    exact hwritten.read_eq_ok_iff.2 ⟨⟨hn, hheights⟩, rfl⟩

theorem SequentExpr.LegibleFrom.unique (h : q.LegibleFrom text) (h' : q'.WrittenAs text n) :
    q' = q :=
  (h'.read_eq_ok_iff.1 (read_eq_ok_iff_legibleFrom.2 h)).2

theorem SequentExpr.read_eq_error_iff {error : InputError} :
    read text = .error error ↔ error = .malformed text ∧ ∀ q, read text ≠ .ok q := by
  unfold read
  split <;> simp [eq_comm]

end Sequents

/-! ### Texts at the limits -/

/-- `false` behind any number of negations is nested as often. -/
theorem writtenAs_negations (n : Nat) : (Nat.repeat Expr.not n .falsum).WrittenAs
    (String.ofList (List.replicate n '~' ++ "false".toList)) n := by
  refine ⟨List.replicate n .not ++ [.falsum], ?_, ?_⟩
  · rw [String.toList_ofList]
    induction n with
    | zero => exact Token.scan_eq_some_iff.1 (by decide +kernel)
    | succ n ih =>
      show Token.Spells ("~".toList ++ (List.replicate n '~' ++ "false".toList)) _
      exact .symbol rfl ih
  · refine .formula_implies (.implies_or (.or_and (.and_unary ?_)))
    induction n with
    | zero => exact .unary_falsum
    | succ n ih => exact .unary_not ih

/-- `true` in front of what does not go on with it as a word. -/
theorem spells_true {cs : List Char} {ts : List Token} (h : Token.Spells cs ts)
    (hend : ∀ c ∈ cs.head?, Token.isWordChar c = false) :
    Token.Spells ("true".toList ++ cs) (.verum :: ts) :=
  .word ⟨by decide, by decide⟩ hend h

/-- `& true`, any number of times, with nothing at its beginning that could go on with a word. -/
theorem spells_conjuncts (n : Nat) :
    Token.Spells (List.replicate n " & true".toList).flatten
        (List.replicate n [.op .and, .verum]).flatten ∧
      ∀ c ∈ (List.replicate n " & true".toList).flatten.head?, Token.isWordChar c = false := by
  induction n with
  | zero => exact ⟨.nil, nofun⟩
  | succ n ih =>
    let cs := (List.replicate n " & true".toList).flatten
    have hand : Token.Spells ("&".toList ++ ' ' :: ("true".toList ++ cs)) (.op .and :: _) :=
      .symbol rfl (.blank rfl (spells_true ih.1 ih.2))
    exact ⟨.blank rfl hand, by simp [List.replicate_succ]; decide⟩

/-- A conjunction of many `true`s is as high as it has connectives, but not nested. -/
theorem writtenAs_conjunction (n : Nat) :
    (Nat.repeat (Expr.binary .and · .verum) n .verum).WrittenAs
      (String.ofList ("true".toList ++ (List.replicate n " & true".toList).flatten)) 0 := by
  refine ⟨.verum :: (List.replicate n [.op .and, .verum]).flatten, ?_, ?_⟩
  · rw [String.toList_ofList]
    obtain ⟨hspells, hend⟩ := spells_conjuncts n
    exact spells_true hspells hend
  · refine .formula_implies (.implies_or (.or_and ?_))
    induction n with
    | zero => exact .and_unary .unary_verum
    | succ n ih =>
      -- the last conjunct is the right operand of the outermost conjunction
      rw [List.replicate_succ', List.flatten_append, ← List.cons_append]
      exact .and_and ih .unary_verum

theorem height_negations (n : Nat) : (Nat.repeat Expr.not n .falsum).height = n := by
  induction n with
  | zero => rfl
  | succ n ih => exact congrArg (· + 1) ih

theorem height_conjunction (n : Nat) :
    (Nat.repeat (Expr.binary .and · .verum) n .verum).height = n := by
  induction n with
  | zero => rfl
  | succ n ih => simp [Nat.repeat, Expr.height, ih]

/-! ### The language -/

/-- **Reading accepts exactly the grammar with its limits.**  A text is read as an expression if
and only if it is a formula of the grammar with that tree, of which the nesting and the height of
each part are within the limits; the tree is then the only one that the grammar gives the text.
Every other text is refused, and named as a whole.  The same holds of sequents. -/
theorem read_accepts_grammar (text : String) :
    ((∀ e, Expr.read text = .ok e ↔ e.LegibleFrom text) ∧
      (∀ e e' : Expr, ∀ n, e.LegibleFrom text → e'.WrittenAs text n → e' = e) ∧
      ∀ error, Expr.read text = .error error ↔
        error = .malformed text ∧ ¬∃ e : Expr, e.LegibleFrom text) ∧
    (∀ q, SequentExpr.read text = .ok q ↔ q.LegibleFrom text) ∧
      (∀ q q' : SequentExpr, ∀ n, q.LegibleFrom text → q'.WrittenAs text n → q' = q) ∧
      ∀ error, SequentExpr.read text = .error error ↔
        error = .malformed text ∧ ¬∃ q : SequentExpr, q.LegibleFrom text := by
  refine ⟨⟨fun e => Expr.read_eq_ok_iff_legibleFrom, fun e e' n => Expr.LegibleFrom.unique,
    fun error => ?_⟩, fun q => SequentExpr.read_eq_ok_iff_legibleFrom,
    fun q q' n => SequentExpr.LegibleFrom.unique, fun error => ?_⟩
  · rw [Expr.read_eq_error_iff, not_exists]
    simp only [ne_eq, Expr.read_eq_ok_iff_legibleFrom]
  · rw [SequentExpr.read_eq_error_iff, not_exists]
    simp only [ne_eq, SequentExpr.read_eq_ok_iff_legibleFrom]

/-- `p -> q -> p` is read as an implication on the right of another one, and has no other tree.  A
hundred negations of `false` are read, and so is a conjunction with a thousand connectives between
`true`s; with one connective more, each of them is refused. -/
theorem read_accepts_grammar_at_limits :
    let tree : Expr := .binary .implies (.atom "p") (.binary .implies (.atom "q") (.atom "p"))
    let negations (n : Nat) := String.ofList (List.replicate n '~' ++ "false".toList)
    let conjunction (n : Nat) :=
      String.ofList ("true".toList ++ (List.replicate n " & true".toList).flatten)
    (Expr.read "p -> q -> p" = .ok tree ∧ ∀ e n, Expr.WrittenAs e "p -> q -> p" n → e = tree) ∧
      Expr.read (negations 100) = .ok (Nat.repeat .not 100 .falsum) ∧
      Expr.read (negations 101) = .error (.malformed (negations 101)) ∧
      Expr.read (conjunction 1000) = .ok (Nat.repeat (.binary .and · .verum) 1000 .verum) ∧
      Expr.read (conjunction 1001) = .error (.malformed (conjunction 1001)) := by
  intro tree negations conjunction
  have hspells : Token.Spells "p -> q -> p".toList
      [.ident "p", .op .implies, .ident "q", .op .implies, .ident "p"] :=
    Token.scan_eq_some_iff.1 (by decide +kernel)
  have hor : ∀ name, Derives .or 0 [.ident name] (.atom name) :=
    fun name => .or_and (.and_unary (.unary_ident name))
  have hinner : Derives .implies 1 [.ident "q", .op .implies, .ident "p"]
      (.binary .implies (.atom "q") (.atom "p")) :=
    .implies_implies (hor "q") (.implies_or (hor "p"))
  have hlegible : tree.LegibleFrom "p -> q -> p" :=
    ⟨2, by decide, ⟨_, hspells, .formula_implies (.implies_implies (hor "p") hinner)⟩, by decide⟩
  -- a text is legible if and only if its only tree and its nesting are within the limits
  have hwithin {e : Expr} {text : String} {n : Nat} (h : e.WrittenAs text n)
      (hn : n ≤ maxNesting) (hheight : e.height ≤ maxHeight) : Expr.read text = .ok e :=
    ((read_accepts_grammar text).1.1 e).2
      ⟨n, hn, h, Expr.forall_mem_subexpressions_height_le.2 hheight⟩
  have hbeyond {e : Expr} {text : String} {n : Nat} (h : e.WrittenAs text n)
      (hlimits : ¬(n ≤ maxNesting ∧ e.height ≤ maxHeight)) :
      Expr.read text = .error (.malformed text) := by
    refine ((read_accepts_grammar text).1.2.2 _).2 ⟨rfl, ?_⟩
    rintro ⟨e', he'⟩
    exact hlimits (h.read_eq_ok_iff.1 (Expr.read_eq_ok_iff_legibleFrom.2 he')).1
  obtain ⟨⟨hread, hunique, -⟩, -⟩ := read_accepts_grammar "p -> q -> p"
  refine ⟨⟨(hread tree).2 hlegible, fun e n => hunique tree e n hlegible⟩,
    hwithin (writtenAs_negations 100) (by decide) ?_, hbeyond (writtenAs_negations 101) ?_,
    hwithin (writtenAs_conjunction 1000) (by decide) ?_, hbeyond (writtenAs_conjunction 1001) ?_⟩
  · rw [height_negations]
    decide
  · simp [maxNesting]
  · rw [height_conjunction]
    decide
  · rw [height_conjunction]
    decide

end SequentCalculus
