import SequentCalculus.Proofs.Reading.Grammar

/-!
# Reading formulas is exact

Tokens are read as an expression if and only if the grammar gives them that tree, with a nesting and
a height within the limits.

* The readers hand back a remainder with a proof that it is shorter.  What they find is first
  written down without these proofs (`found`), one equation for each way to go on.
* A phrase that has a derivation is read as its tree if the limits allow it, and is not read if they
  do not (`Derives.readable`).  The induction is on the derivation.  Since chains are derived from
  the right and read from the left, what is shown of a chain is that its reader comes to stand after
  the tokens with their tree in hand (`ReadsChain`), so that another operator may follow.
* What a reader finds has a derivation (`finds_level`), by induction on the nestings that are left.

Since a derived phrase is read as its tree and as nothing else, tokens that are read have only one
tree.
-/

namespace SequentCalculus

namespace Reading

variable {α : Type} {n : Nat}

/-! ### What a reader finds -/

/-- What was read and what is left, without the proof that tokens were used up. -/
def found (result : Option (Parsed α n)) : Option (α × List Token) :=
  result.map fun p => (p.value, p.rest)

@[simp] theorem found_none : found (none : Option (Parsed α n)) = none := rfl

@[simp] theorem found_some (p : Parsed α n) : found (some p) = some (p.value, p.rest) := rfl

@[simp] theorem found_weaken {m : Nat} (result : Option (Parsed α m)) (h : m ≤ n) :
    found (result.map (·.weaken h)) = found result := by
  cases result <;> rfl

theorem found_eq_some_iff {result : Option (Parsed α n)} {a : α} {rest : List Token} :
    found result = some (a, rest) ↔ ∃ h, result = some ⟨a, rest, h⟩ := by
  cases result with
  | none => simp
  | some p =>
    obtain ⟨b, ts, h⟩ := p
    constructor
    · intro heq
      cases heq
      exact ⟨h, rfl⟩
    · rintro ⟨h', heq⟩
      cases heq
      rfl

variable (op : BinOp) (operand : Reader Expr) (left : Expr) (ts : List Token)

theorem found_chain : found (chain op operand ts) =
    (found (operand ts)).bind fun p => found (chainAfter op operand p.1 p.2) := by
  unfold chain
  cases operand ts with
  | none => rfl
  | some first => exact found_weaken ..

theorem found_chainAfter_op : found (chainAfter op operand left (.op op :: ts)) =
    (found (operand ts)).bind fun p =>
      (limited (.binary op left p.1)).bind fun e => found (chainAfter op operand e p.2) := by
  rw [chainAfter, if_pos rfl]
  cases operand ts with
  | none => rfl
  | some right =>
    simp only [found_some, Option.bind_some]
    cases limited (.binary op left right.value) with
    | none => rfl
    | some e => exact found_weaken ..

variable {op ts} in
theorem found_chainAfter_of_head (h : ts.head? ≠ some (.op op)) :
    found (chainAfter op operand left ts) = some (left, ts) := by
  rw [chainAfter.eq_def]
  split
  · rename_i o ts
    have hne : o ≠ op := by
      rintro rfl
      exact h rfl
    rw [if_neg hne]
    rfl
  · rfl

variable (below : Level)

theorem found_unaryOver_not : found (unaryOver below (.not :: ts)) =
    (found (below.unary ts)).bind fun p => (limited (.not p.1)).map fun e => (e, p.2) := by
  rw [unaryOver]
  cases below.unary ts with
  | none => rfl
  | some operand =>
    simp only [found_some, Option.bind_some]
    cases limited (.not operand.value) <;> rfl

/-- What is left of a formula in parentheses: the closing one has to follow. -/
def closed : Expr × List Token → Option (Expr × List Token)
  | (e, .rparen :: rest) => some (e, rest)
  | _ => none

theorem closed_eq_some_iff {e e' : Expr} {rest rest' : List Token} :
    closed (e', rest') = some (e, rest) ↔ e' = e ∧ rest' = .rparen :: rest := by
  unfold closed
  split
  · rename_i heq
    cases heq
    simp
  · rename_i hne
    simp only [reduceCtorEq, false_iff, not_and]
    rintro rfl rfl
    exact hne _ _ rfl

theorem found_unaryOver_lparen : found (unaryOver below (.lparen :: ts)) =
    (found (below.formula ts)).bind closed := by
  rw [unaryOver]
  split
  · rename_i heq
    rw [heq]
    rfl
  · rename_i hne
    cases hread : below.formula ts with
    | none => rfl
    | some p =>
      obtain ⟨e, rest, h⟩ := p
      show none = closed (e, rest)
      refine (Option.eq_none_iff_forall_ne_some.2 fun q hq => ?_).symm
      obtain ⟨rfl, rfl⟩ := closed_eq_some_iff.1 hq
      exact hne _ _ _ hread

/-- What becomes of an `or`: after `->`, the left-hand side of an implication. -/
def continued : Expr × List Token → Option (Expr × List Token)
  | (left, .op .implies :: rest) =>
    (found (below.implies rest)).bind fun q =>
      (limited (.binary .implies left q.1)).map fun e => (e, q.2)
  | p => some p

variable {ts} in
theorem continued_of_head (h : ts.head? ≠ some (.op .implies)) :
    continued below (left, ts) = some (left, ts) := by
  unfold continued
  split
  · rename_i heq
    cases heq
    exact absurd rfl h
  · rfl

theorem found_impliesOver (unary : Reader Expr) : found (impliesOver unary below ts) =
    (found (chain .or (chain .and unary) ts)).bind (continued below) := by
  unfold impliesOver
  split
  · rename_i heq
    rw [heq]
    rfl
  · rename_i left rest h heq
    rw [heq]
    simp only [found_some, Option.bind_some, continued]
    cases below.implies rest with
    | none => rfl
    | some right =>
      simp only [found_some, Option.bind_some]
      cases limited (.binary .implies left right.value) <;> rfl
  · rename_i p hne heq
    obtain ⟨left, rest, h⟩ := p
    rw [heq]
    refine (continued_of_head left below fun hhead => ?_).symm
    obtain ⟨rest', rfl⟩ := List.head?_eq_some_iff.1 hhead
    exact hne _ _ h rfl

/-! ### The limits -/

/-- An expression, unless it is too high or too nested for `k` nestings left. -/
def within (k n : Nat) (e : Expr) : Option Expr :=
  if n < k ∧ e.height ≤ maxHeight then some e else none

variable {k k' m n n' : Nat} {ls rs us : List Token} {l r e : Expr}

theorem limited_eq_some_iff {a : Expr} : limited e = some a ↔ e.height ≤ maxHeight ∧ e = a := by
  rw [limited, Option.ite_none_right_eq_some, Option.some_inj]

theorem within_eq_some_iff {a : Expr} :
    within k n e = some a ↔ (n < k ∧ e.height ≤ maxHeight) ∧ e = a := by
  rw [within, Option.ite_none_right_eq_some, Option.some_inj]

theorem within_zero (n : Nat) (e : Expr) : within 0 n e = none :=
  if_neg fun h => Nat.not_lt_zero n h.1

theorem within_succ : within (k + 1) (n + 1) e = within k n e := by
  simp only [within, Nat.succ_lt_succ_iff]

theorem within_not :
    ((within k n e).bind fun a => limited (.not a)) = within (k + 1) (n + 1) (.not e) := by
  ext a
  rw [Option.bind_eq_some_iff, within_eq_some_iff]
  constructor
  · rintro ⟨b, hb, ha⟩
    obtain ⟨⟨hn, -⟩, rfl⟩ := within_eq_some_iff.1 hb
    obtain ⟨hheight, rfl⟩ := limited_eq_some_iff.1 ha
    exact ⟨⟨Nat.succ_lt_succ hn, hheight⟩, rfl⟩
  · rintro ⟨⟨hn, hheight⟩, rfl⟩
    have he : e.height ≤ maxHeight := Nat.le_of_succ_le hheight
    exact ⟨e, within_eq_some_iff.2 ⟨⟨Nat.lt_of_succ_lt_succ hn, he⟩, rfl⟩,
      limited_eq_some_iff.2 ⟨hheight, rfl⟩⟩

/-- An operation, of which the right operand may be read with fewer nestings left than the left
one. -/
theorem within_binary (op : BinOp) (hright : n < k' ↔ n' < k) :
    ((within k m l).bind fun a => (within k' n r).bind fun b => limited (.binary op a b)) =
      within k (max m n') (.binary op l r) := by
  ext a
  simp only [Option.bind_eq_some_iff, within_eq_some_iff, limited_eq_some_iff]
  constructor
  · rintro ⟨_, ⟨⟨hm, -⟩, rfl⟩, _, ⟨⟨hn, -⟩, rfl⟩, hheight, rfl⟩
    exact ⟨⟨Nat.max_lt.2 ⟨hm, hright.1 hn⟩, hheight⟩, rfl⟩
  · rintro ⟨⟨hmax, hheight⟩, rfl⟩
    obtain ⟨hm, hn⟩ := Nat.max_lt.1 hmax
    obtain ⟨hl, hr⟩ := Nat.max_le.1 (Nat.le_of_succ_le hheight)
    exact ⟨l, ⟨⟨hm, hl⟩, rfl⟩, r, ⟨⟨hright.2 hn, hr⟩, rfl⟩, hheight, rfl⟩

/-! ### What is derived is read -/

/-- The operators that would carry on a phrase. -/
def Phrase.operators : Phrase → List BinOp
  | .formula => [.and, .or, .implies, .iff]
  | .implies => [.and, .or, .implies]
  | .or => [.and, .or]
  | .and => [.and]
  | .unary => []

/-- None of the operators that would carry on the phrase comes next. -/
def Phrase.EndsBefore (phrase : Phrase) (rest : List Token) : Prop :=
  ∀ op ∈ phrase.operators, rest.head? ≠ some (.op op)

theorem Phrase.EndsBefore.mono {phrase sub : Phrase} {rest : List Token}
    (h : phrase.EndsBefore rest) (hsub : ∀ o ∈ sub.operators, o ∈ phrase.operators) :
    sub.EndsBefore rest :=
  fun o ho => h o (hsub o ho)

theorem Phrase.endsBefore_op {phrase : Phrase} {op : BinOp} (hop : op ∉ phrase.operators)
    (rest : List Token) : phrase.EndsBefore (.op op :: rest) := by
  intro o ho hhead
  cases hhead
  exact hop ho

/-- The reader reads the tokens as the expression, if that is within the limits, and stops where
the phrase ends. -/
def Reads (phrase : Phrase) (reader : Reader Expr) (k n : Nat) (ts : List Token) (e : Expr) :
    Prop :=
  ∀ rest, phrase.EndsBefore rest →
    found (reader (ts ++ rest)) = (within k n e).map fun a => (a, rest)

/-- A chain of operands comes to stand after the tokens, with the expression as its left side. -/
def ReadsChain (phrase : Phrase) (op : BinOp) (operand : Reader Expr) (k n : Nat) (ts : List Token)
    (e : Expr) : Prop :=
  ∀ rest, phrase.EndsBefore rest →
    found (chain op operand (ts ++ rest)) =
      (within k n e).bind fun a => found (chainAfter op operand a rest)

section Chain

variable {phrase : Phrase} {op : BinOp} {operand : Reader Expr}

theorem Reads.first (h : Reads phrase operand k n us e) :
    ReadsChain phrase op operand k n us e := by
  intro rest hrest
  rw [found_chain, h rest hrest, Option.bind_map]
  rfl

theorem ReadsChain.next (hl : ReadsChain phrase op operand k m ls l)
    (hop : op ∉ phrase.operators) (hr : Reads phrase operand k n rs r) :
    ReadsChain phrase op operand k (max m n) (ls ++ .op op :: rs) (.binary op l r) := by
  intro rest hrest
  calc found (chain op operand (ls ++ .op op :: rs ++ rest))
      = (within k m l).bind fun a => found (chainAfter op operand a (.op op :: (rs ++ rest))) := by
        rw [List.append_assoc, List.cons_append, hl _ (Phrase.endsBefore_op hop _)]
    _ = (within k m l).bind fun a => (within k n r).bind fun b =>
          (limited (.binary op a b)).bind fun c => found (chainAfter op operand c rest) := by
        simp only [found_chainAfter_op, hr rest hrest, Option.bind_map]
        rfl
    _ = (within k (max m n) (.binary op l r)).bind fun c =>
          found (chainAfter op operand c rest) := by
        simp only [← within_binary op Iff.rfl, Option.bind_assoc]

theorem ReadsChain.reads {whole : Phrase} (h : ReadsChain phrase op operand k n us e)
    (hsub : ∀ o ∈ phrase.operators, o ∈ whole.operators) (hop : op ∈ whole.operators) :
    Reads whole (chain op operand) k n us e := by
  intro rest hrest
  rw [h rest (hrest.mono hsub), Option.map_eq_bind]
  exact Option.bind_congr fun a _ => found_chainAfter_of_head operand a (hrest op hop)

end Chain

section Level

/-- With no nestings left nothing is read. -/
theorem reads_of_eq_none {phrase : Phrase} {reader : Reader Expr}
    (h : ∀ ts, found (reader ts) = none) : Reads phrase reader 0 n us e := by
  intro rest _
  rw [h, within_zero]
  rfl

theorem Reads.implies_or
    (h : Reads .or (chain .or (chain .and (level (k + 1)).unary)) (k + 1) n us e) :
    Reads .implies (level (k + 1)).implies (k + 1) n us e := by
  intro rest hrest
  calc found ((level (k + 1)).implies (us ++ rest))
      = (found (chain .or (chain .and (level (k + 1)).unary) (us ++ rest))).bind
          (continued (level k)) := found_impliesOver ..
    _ = (within (k + 1) n e).bind fun a => continued (level k) (a, rest) := by
        rw [h rest (hrest.mono (by decide)), Option.bind_map]
        rfl
    _ = (within (k + 1) n e).map fun a => (a, rest) := by
        rw [Option.map_eq_bind]
        exact Option.bind_congr fun a _ =>
          continued_of_head a (level k) (hrest .implies (by decide))

theorem Reads.implies_implies
    (hl : Reads .or (chain .or (chain .and (level (k + 1)).unary)) (k + 1) m ls l)
    (hr : Reads .implies (level k).implies k n rs r) :
    Reads .implies (level (k + 1)).implies (k + 1) (max m (n + 1)) (ls ++ .op .implies :: rs)
      (.binary .implies l r) := by
  intro rest hrest
  have hends : Phrase.EndsBefore .or (.op .implies :: (rs ++ rest)) :=
    Phrase.endsBefore_op (by decide) _
  calc found ((level (k + 1)).implies (ls ++ .op .implies :: rs ++ rest))
      = (found (chain .or (chain .and (level (k + 1)).unary)
          (ls ++ .op .implies :: (rs ++ rest)))).bind (continued (level k)) := by
        rw [List.append_assoc, List.cons_append]
        exact found_impliesOver ..
    _ = (within (k + 1) m l).bind fun a => (within k n r).bind fun b =>
          (limited (.binary .implies a b)).map fun c => (c, rest) := by
        simp only [hl _ hends, Option.bind_map, Function.comp_def, continued, hr rest hrest]
    _ = (within (k + 1) (max m (n + 1)) (.binary .implies l r)).map fun c => (c, rest) := by
        rw [← within_binary .implies (Nat.succ_lt_succ_iff (a := n) (b := k)).symm]
        simp only [Option.map_bind, Function.comp_def]

theorem Reads.unary_not (h : Reads .unary (level k).unary k n us e) :
    Reads .unary (level (k + 1)).unary (k + 1) (n + 1) (.not :: us) (.not e) := by
  intro rest hrest
  calc found (unaryOver (level k) (.not :: (us ++ rest)))
      = (within k n e).bind fun a => (limited (.not a)).map fun c => (c, rest) := by
        rw [found_unaryOver_not, h rest hrest, Option.bind_map]
        rfl
    _ = (within (k + 1) (n + 1) (.not e)).map fun c => (c, rest) := by
        rw [← within_not, Option.map_bind]
        rfl

theorem Reads.unary_paren (h : Reads .formula (level k).formula k n us e) :
    Reads .unary (level (k + 1)).unary (k + 1) (n + 1) (.lparen :: (us ++ [.rparen])) e := by
  intro rest _
  have hends : Phrase.EndsBefore .formula (.rparen :: rest) := by
    intro o ho hhead
    cases hhead
  calc found (unaryOver (level k) (.lparen :: (us ++ [.rparen] ++ rest)))
      = (within k n e).bind fun a => closed (a, .rparen :: rest) := by
        rw [List.append_assoc, List.singleton_append, found_unaryOver_lparen, h _ hends,
          Option.bind_map]
        rfl
    _ = (within (k + 1) (n + 1) e).map fun a => (a, rest) := by
        rw [within_succ, Option.map_eq_bind]
        rfl

/-- A `unary` of one token has no nesting and no height. -/
theorem reads_token {t : Token} (hheight : e.height = 0)
    (h : ∀ below rest, found (unaryOver below (t :: rest)) = some (e, rest)) (k : Nat) :
    Reads .unary (level k).unary k 0 [t] e := by
  cases k with
  | zero => exact reads_of_eq_none fun _ => rfl
  | succ k =>
    intro rest _
    have hwithin : within (k + 1) 0 e = some e :=
      if_pos ⟨Nat.succ_pos k, hheight ▸ Nat.zero_le maxHeight⟩
    rw [hwithin]
    exact h (level k) rest

end Level

/-- How the phrases are read with `k` nestings left.  Where a phrase is a chain, another operator
may follow. -/
def Readable (k : Nat) : Phrase → Nat → List Token → Expr → Prop
  | .formula => ReadsChain .implies .iff (level k).implies k
  | .implies => Reads .implies (level k).implies k
  | .or => ReadsChain .and .or (chain .and (level k).unary) k
  | .and => ReadsChain .unary .and (level k).unary k
  | .unary => Reads .unary (level k).unary k

theorem Readable.formula (h : Readable k .formula n us e) :
    Reads .formula (level k).formula k n us e :=
  ReadsChain.reads h (by decide) (by decide)

theorem Readable.or (h : Readable k .or n us e) :
    Reads .or (chain .or (chain .and (level k).unary)) k n us e :=
  ReadsChain.reads h (by decide) (by decide)

theorem Readable.and (h : Readable k .and n us e) :
    Reads .and (chain .and (level k).unary) k n us e :=
  ReadsChain.reads h (by decide) (by decide)

/-- **A derived phrase is read**, at every level that has enough nestings left, and at no
other. -/
theorem Derives.readable {phrase : Phrase} (h : Derives phrase n us e) (k : Nat) :
    Readable k phrase n us e := by
  induction h generalizing k with
  -- the chains
  | formula_implies _ ih => exact Reads.first (ih k)
  | formula_iff _ _ ihl ihr => exact ReadsChain.next (ihl k) (by decide) (ihr k)
  | or_and _ ih => exact Reads.first (ih k).and
  | or_or _ _ ihl ihr => exact ReadsChain.next (ihl k) (by decide) (ihr k).and
  | and_unary _ ih => exact Reads.first (ih k)
  | and_and _ _ ihl ihr => exact ReadsChain.next (ihl k) (by decide) (ihr k)
  -- the phrases that take a level
  | implies_or _ ih =>
    cases k with
    | zero => exact reads_of_eq_none fun _ => rfl
    | succ k => exact (ih (k + 1)).or.implies_or
  | implies_implies _ _ ihl ihr =>
    cases k with
    | zero => exact reads_of_eq_none fun _ => rfl
    | succ k => exact (ihl (k + 1)).or.implies_implies (ihr k)
  | unary_not _ ih =>
    cases k with
    | zero => exact reads_of_eq_none fun _ => rfl
    | succ k => exact Reads.unary_not (ih k)
  | unary_paren _ ih =>
    cases k with
    | zero => exact reads_of_eq_none fun _ => rfl
    | succ k => exact (ih k).formula.unary_paren
  | unary_falsum => exact reads_token rfl (fun _ _ => rfl) k
  | unary_verum => exact reads_token rfl (fun _ _ => rfl) k
  | unary_ident name => exact reads_token rfl (fun _ _ => rfl) k

/-! ### What is read is derived -/

/-- Whatever the reader reads is a phrase within the limits, and the tokens after it are left. -/
def Finds (reader : Reader Expr) (phrase : Phrase) (k : Nat) : Prop :=
  ∀ {ts e rest}, found (reader ts) = some (e, rest) →
    ∃ us n, ts = us ++ rest ∧ Derives phrase n us e ∧ n < k ∧ e.height ≤ maxHeight

section Chain

variable {phrase sub : Phrase} {op : BinOp} {operand : Reader Expr}

/-- A chain goes on from the phrase that has been read. -/
theorem finds_chainAfter
    (hnext : ∀ {m n ls rs l r}, Derives phrase m ls l → Derives sub n rs r →
      Derives phrase (max m n) (ls ++ .op op :: rs) (.binary op l r))
    (hoperand : Finds operand sub k) {ts rest : List Token} (hl : Derives phrase m ls l)
    (hm : m < k) (hheight : l.height ≤ maxHeight)
    (h : found (chainAfter op operand l ts) = some (e, rest)) :
    ∃ us n, ls ++ ts = us ++ rest ∧ Derives phrase n us e ∧ n < k ∧ e.height ≤ maxHeight := by
  induction hlen : ts.length using Nat.strongRecOn generalizing ts ls l m with
  | ind len ih =>
    by_cases hhead : ts.head? = some (.op op)
    · obtain ⟨ts, rfl⟩ := List.head?_eq_some_iff.1 hhead
      rw [found_chainAfter_op] at h
      obtain ⟨⟨r, rest'⟩, hr, hrest⟩ := Option.bind_eq_some_iff.1 h
      obtain ⟨a, ha, hafter⟩ := Option.bind_eq_some_iff.1 hrest
      obtain ⟨hheight', rfl⟩ := limited_eq_some_iff.1 ha
      obtain ⟨rs, n, rfl, hr', hn, -⟩ := hoperand hr
      have hshorter : rest'.length < len := by
        rw [← hlen, List.length_cons, List.length_append]
        omega
      obtain ⟨us, n', hus, hderives⟩ :=
        ih _ hshorter (hnext hl hr') (Nat.max_lt.2 ⟨hm, hn⟩) hheight' hafter rfl
      exact ⟨us, n', by rw [← hus, List.append_assoc, List.cons_append], hderives⟩
    · rw [found_chainAfter_of_head operand l hhead] at h
      cases h
      exact ⟨ls, m, rfl, hl, hm, hheight⟩

theorem finds_chain (hfirst : ∀ {n ts e}, Derives sub n ts e → Derives phrase n ts e)
    (hnext : ∀ {m n ls rs l r}, Derives phrase m ls l → Derives sub n rs r →
      Derives phrase (max m n) (ls ++ .op op :: rs) (.binary op l r))
    (hoperand : Finds operand sub k) : Finds (chain op operand) phrase k := by
  intro ts e rest h
  rw [found_chain] at h
  obtain ⟨⟨l, rest'⟩, hl, hafter⟩ := Option.bind_eq_some_iff.1 h
  obtain ⟨ls, m, rfl, hl', hm, hheight⟩ := hoperand hl
  exact finds_chainAfter hnext hoperand (hfirst hl') hm hheight hafter

end Chain

theorem finds_levelFormula {below : Level} (h : Finds below.implies .implies k) :
    Finds below.formula .formula k :=
  finds_chain .formula_implies .formula_iff h

theorem finds_or {unary : Reader Expr} (h : Finds unary .unary k) :
    Finds (chain .or (chain .and unary)) .or k :=
  finds_chain .or_and .or_or (finds_chain .and_unary .and_and h)

theorem finds_unaryOver {below : Level} (hunary : Finds below.unary .unary k)
    (himplies : Finds below.implies .implies k) : Finds (unaryOver below) .unary (k + 1) := by
  intro ts e rest h
  cases ts with
  | nil => cases h
  | cons t ts =>
    cases t with
    | not =>
      rw [found_unaryOver_not] at h
      obtain ⟨⟨a, rest'⟩, ha, hnot⟩ := Option.bind_eq_some_iff.1 h
      obtain ⟨b, hb, heq⟩ := Option.map_eq_some_iff.1 hnot
      cases heq
      obtain ⟨hheight, rfl⟩ := limited_eq_some_iff.1 hb
      obtain ⟨us, n, rfl, ha', hn, -⟩ := hunary ha
      exact ⟨.not :: us, n + 1, rfl, .unary_not ha', Nat.succ_lt_succ hn, hheight⟩
    | lparen =>
      rw [found_unaryOver_lparen] at h
      obtain ⟨⟨a, rest'⟩, ha, hclosed⟩ := Option.bind_eq_some_iff.1 h
      obtain ⟨us, n, rfl, ha', hn, hheight⟩ := finds_levelFormula himplies ha
      obtain ⟨rfl, rfl⟩ := closed_eq_some_iff.1 hclosed
      exact ⟨.lparen :: (us ++ [.rparen]), n + 1, by simp, .unary_paren ha', Nat.succ_lt_succ hn,
        hheight⟩
    | falsum =>
      cases h
      exact ⟨[.falsum], 0, rfl, .unary_falsum, Nat.succ_pos k, Nat.zero_le _⟩
    | verum =>
      cases h
      exact ⟨[.verum], 0, rfl, .unary_verum, Nat.succ_pos k, Nat.zero_le _⟩
    | ident name =>
      cases h
      exact ⟨[.ident name], 0, rfl, .unary_ident name, Nat.succ_pos k, Nat.zero_le _⟩
    | _ => cases h

theorem finds_impliesOver {unary : Reader Expr} {below : Level}
    (hunary : Finds unary .unary (k + 1)) (himplies : Finds below.implies .implies k) :
    Finds (impliesOver unary below) .implies (k + 1) := by
  intro ts e rest h
  rw [found_impliesOver] at h
  obtain ⟨⟨l, rest'⟩, hl, hafter⟩ := Option.bind_eq_some_iff.1 h
  obtain ⟨ls, m, rfl, hl', hm, hheight⟩ := finds_or hunary hl
  by_cases hhead : rest'.head? = some (.op .implies)
  · obtain ⟨ts, rfl⟩ := List.head?_eq_some_iff.1 hhead
    obtain ⟨⟨r, rest''⟩, hr, himp⟩ := Option.bind_eq_some_iff.1 hafter
    obtain ⟨a, ha, heq⟩ := Option.map_eq_some_iff.1 himp
    cases heq
    obtain ⟨hheight', rfl⟩ := limited_eq_some_iff.1 ha
    obtain ⟨rs, n, rfl, hr', hn, -⟩ := himplies hr
    exact ⟨ls ++ .op .implies :: rs, max m (n + 1), by simp, .implies_implies hl' hr',
      Nat.max_lt.2 ⟨hm, Nat.succ_lt_succ hn⟩, hheight'⟩
  · rw [continued_of_head l below hhead] at hafter
    cases hafter
    exact ⟨ls, m, rfl, .implies_or hl', hm, hheight⟩

/-- **What a level reads is derived**, with as much nesting as the level has left. -/
theorem finds_level (k : Nat) :
    Finds (level k).unary .unary k ∧ Finds (level k).implies .implies k := by
  induction k with
  | zero => exact ⟨fun h => (nomatch h), fun h => (nomatch h)⟩
  | succ k ih =>
    have hunary : Finds (level (k + 1)).unary .unary (k + 1) := finds_unaryOver ih.1 ih.2
    exact ⟨hunary, finds_impliesOver hunary ih.2⟩

/-! ### Formulas -/

theorem Derives.found_formula (h : Derives .formula n us e) {rest : List Token}
    (hrest : Phrase.EndsBefore .formula rest) :
    found (formula (us ++ rest)) = (within (maxNesting + 1) n e).map fun a => (a, rest) :=
  (h.readable (maxNesting + 1)).formula rest hrest

theorem finds_formula : Finds formula .formula (maxNesting + 1) :=
  finds_levelFormula (finds_level (maxNesting + 1)).2

end Reading

open Reading

variable {ts : List Token} {e : Expr}

theorem Expr.ofTokens?_eq_some_iff :
    Expr.ofTokens? ts = some e ↔ found (Reading.formula ts) = some (e, []) := by
  rw [found_eq_some_iff, Expr.ofTokens?]
  constructor
  · intro h
    split at h
    · rename_i heq
      cases h
      exact ⟨_, heq⟩
    · cases h
  · rintro ⟨h, heq⟩
    rw [heq]

/-- **Tokens that have a tree are read as that tree**, if it is within the limits, and are not
read otherwise. -/
theorem Reading.Derives.ofTokens? {n : Nat} (h : Derives .formula n ts e) :
    Expr.ofTokens? ts = within (maxNesting + 1) n e := by
  have hends : Phrase.EndsBefore .formula [] := fun _ _ => by simp
  have hread := h.found_formula hends
  rw [List.append_nil] at hread
  ext a
  rw [Expr.ofTokens?_eq_some_iff, hread]
  simp

/-- **Tokens that are read have a tree**, which is what they are read as. -/
theorem Expr.derives_of_ofTokens? (h : Expr.ofTokens? ts = some e) :
    ∃ n, Derives .formula n ts e ∧ n ≤ maxNesting ∧ e.height ≤ maxHeight := by
  obtain ⟨us, n, rfl, hderives, hn, hheight⟩ :=
    finds_formula (Expr.ofTokens?_eq_some_iff.1 h)
  rw [List.append_nil]
  exact ⟨n, hderives, Nat.le_of_lt_succ hn, hheight⟩

end SequentCalculus
