import SequentCalculus.Proofs.Reading.Language
import SequentCalculus.Proofs.Sequent

/-!
# Printing and reading

A formula of a store that began with the constants `false` and `true` can be printed and read back.
There is one limit.  The text puts every binary connective in parentheses, which the reader counts
as nesting, and it counts the right-hand side of `->` on top of that; `Expr.printedNesting` is what
this comes to.  A text within the limit is read as the formula that was printed, and the store is
left as it is; a text beyond it is not read at all.

* The text spells out `Expr.tokens` (`Expr.spells_text`), and these are a `unary` of the grammar
  (`Expr.derives_tokens`).  Its tree is the printed one, except that the constants, which are atoms
  to a store, come back as constants (`Expr.reread`).
* Since reading is exact, the text is read as that tree or not at all
  (`Expr.read_text_eq_ok_iff`, `Store.read_sequentText_eq_ok_iff`).
* Building the tree finds every formula of it in the store.  No policy rewrites any of them, since
  the store holds only what its policy admits (`Store.build_reread`).
-/

namespace SequentCalculus

open Reading

namespace Expr

/-- The names of the atoms, from left to right. -/
def names : Expr → List String
  | .falsum => []
  | .verum => []
  | .atom name => [name]
  | .not a => a.names
  | .binary _ a b => a.names ++ b.names

/-- The nesting of the text: a binary connective puts both sides in parentheses, and `->` nests its
right-hand side once more. -/
def printedNesting : Expr → Nat
  | .falsum => 0
  | .verum => 0
  | .atom _ => 0
  | .not a => 1 + a.printedNesting
  | .binary .and a b | .binary .or a b | .binary .iff a b =>
    1 + max a.printedNesting b.printedNesting
  | .binary .implies a b => 1 + max a.printedNesting (1 + b.printedNesting)

/-- The tokens of the text. -/
def tokens : Expr → List Token
  | .falsum => [.falsum]
  | .verum => [.verum]
  | .atom name => [.ofWord name.toList]
  | .not a => .not :: a.tokens
  | .binary op a b => .lparen :: (a.tokens ++ .op op :: b.tokens ++ [.rparen])

/-- What the text is read as: an atom with the name of a constant is taken for the constant. -/
def reread : Expr → Expr
  | .falsum => .falsum
  | .verum => .verum
  | .atom name => if name = "false" then .falsum else if name = "true" then .verum else .atom name
  | .not a => .not a.reread
  | .binary op a b => .binary op a.reread b.reread

/-! ### The text of an expression -/

/-- The text is written with the tokens, whatever follows that does not carry on a word. -/
theorem spells_text {e : Expr} (hnames : ∀ name ∈ e.names, Token.IsWord name.toList)
    {cs : List Char} {ts : List Token} (hend : ∀ c ∈ cs.head?, Token.isWordChar c = false)
    (h : Token.Spells cs ts) : Token.Spells (e.text.toList ++ cs) (e.tokens ++ ts) := by
  induction e generalizing cs ts with
  | falsum => exact @Token.Spells.word "false".toList _ _ ⟨by decide, by decide⟩ hend h
  | verum => exact @Token.Spells.word "true".toList _ _ ⟨by decide, by decide⟩ hend h
  | atom name => exact .word (hnames name (List.mem_singleton.2 rfl)) hend h
  | not a ih =>
    rw [text, String.toList_append, List.append_assoc]
    exact .symbol rfl (ih hnames hend h)
  | binary op a b iha ihb =>
    obtain ⟨hleft, hright⟩ := List.forall_mem_append.1 hnames
    have hparen : Token.Spells (")".toList ++ cs) (.rparen :: ts) := .symbol rfl h
    have hb := ihb hright (fun c hc => by cases hc; decide) hparen
    have hop : Token.Spells (op.symbol.toList ++ ' ' :: (b.text.toList ++ (")".toList ++ cs)))
        (.op op :: (b.tokens ++ .rparen :: ts)) := .symbol rfl (.blank (by decide) hb)
    have ha := iha hleft (fun c hc => by cases hc; decide)
      (.blank (by decide : Token.isSpace ' ' = true) hop)
    have hall : Token.Spells _ (.lparen :: _) := .symbol rfl ha
    simpa [text, tokens] using hall

/-- The tokens of the text are a `unary`: a binary connective stands in parentheses. -/
theorem derives_tokens (e : Expr) : Derives .unary e.printedNesting e.tokens e.reread := by
  induction e with
  | falsum => exact .unary_falsum
  | verum => exact .unary_verum
  | atom name =>
    unfold tokens reread Token.ofWord
    rw [String.ofList_toList]
    split
    · exact .unary_falsum
    · exact .unary_verum
    · rename_i hfalse htrue
      rw [if_neg hfalse, if_neg htrue]
      exact .unary_ident name
  | not a ih =>
    rw [printedNesting, Nat.add_comm]
    exact .unary_not ih
  | binary op a b iha ihb =>
    have ha : Derives .or a.printedNesting a.tokens a.reread := .or_and (.and_unary iha)
    have hb : Derives .implies b.printedNesting b.tokens b.reread :=
      .implies_or (.or_and (.and_unary ihb))
    cases op with
    | and =>
      rw [printedNesting, Nat.add_comm]
      exact .unary_paren (.formula_implies (.implies_or (.or_and (.and_and (.and_unary iha) ihb))))
    | or =>
      rw [printedNesting, Nat.add_comm]
      exact .unary_paren (.formula_implies (.implies_or (.or_or ha (.and_unary ihb))))
    | implies =>
      rw [printedNesting, Nat.add_comm, Nat.add_comm 1]
      exact .unary_paren (.formula_implies (.implies_implies ha hb))
    | iff =>
      rw [printedNesting, Nat.add_comm]
      exact .unary_paren (.formula_iff (.formula_implies (.implies_or ha)) hb)

theorem derives_formula_tokens (e : Expr) :
    Derives .formula e.printedNesting e.tokens e.reread :=
  .formula_implies (.implies_or (.or_and (.and_unary e.derives_tokens)))

theorem height_reread_le (e : Expr) : e.reread.height ≤ e.printedNesting := by
  induction e with
  | falsum | verum => exact Nat.le_refl 0
  | atom name =>
    unfold reread
    split
    · exact Nat.le_refl 0
    · split <;> exact Nat.le_refl 0
  | not a ih =>
    rw [reread, height, printedNesting]
    omega
  | binary op a b iha ihb => cases op <;> rw [reread, height, printedNesting] <;> omega

/-- The limit on the nesting is so much stricter that the limit on the height plays no part. -/
theorem height_reread_le_maxHeight {e : Expr} (h : e.printedNesting ≤ maxNesting) :
    e.reread.height ≤ maxHeight :=
  Nat.le_trans e.height_reread_le (Nat.le_trans h (by decide))

/-- The texts of expressions with commas between them. -/
theorem spells_intercalate {es : List Expr}
    (hnames : ∀ e ∈ es, ∀ name ∈ e.names, Token.IsWord name.toList) {cs : List Char}
    {ts : List Token} (hend : ∀ c ∈ cs.head?, Token.isWordChar c = false)
    (h : Token.Spells cs ts) :
    Token.Spells ((", ".intercalate (es.map text)).toList ++ cs)
      ([Token.comma].intercalate (es.map tokens) ++ ts) := by
  induction es with
  | nil => exact h
  | cons e es ih =>
    obtain ⟨he, hes⟩ := List.forall_mem_cons.1 hnames
    cases es with
    | nil =>
      rw [List.map_singleton, List.map_singleton, String.intercalate_singleton,
        List.intercalate_singleton]
      exact spells_text he hend h
    | cons e' es =>
      have hcomma : Token.Spells (",".toList ++ ' ' :: _) (.comma :: _) :=
        .symbol rfl (.blank (by decide) (ih hes))
      have hall := spells_text he (fun c hc => by cases hc; decide) hcomma
      simpa [String.intercalate_cons_cons, List.intercalate_cons_cons] using hall

/-- The tokens of expressions with commas between them are a cedent, unless there are none. -/
theorem exists_derivesCedent (e : Expr) (es : List Expr) :
    ∃ n, DerivesCedent n ([Token.comma].intercalate ((e :: es).map tokens))
        ((e :: es).map reread) ∧
      ∀ bound, n ≤ bound ↔ ∀ a ∈ e :: es, a.printedNesting ≤ bound := by
  induction es generalizing e with
  | nil =>
    refine ⟨e.printedNesting, .single ?_, fun bound => by rw [List.forall_mem_singleton]⟩
    rw [List.map_singleton, List.intercalate_singleton]
    exact e.derives_formula_tokens
  | cons e' es ih =>
    obtain ⟨n, hderives, hn⟩ := ih e'
    refine ⟨max e.printedNesting n, ?_, fun bound => ?_⟩
    · have hcons := DerivesCedent.cons e.derives_formula_tokens hderives
      simpa [List.intercalate_cons_cons] using hcons
    · rw [Nat.max_le, hn, List.forall_mem_cons (a := e)]

theorem exists_derivesSide (es : List Expr) :
    ∃ n, DerivesSide n ([Token.comma].intercalate (es.map tokens)) (es.map reread) ∧
      ∀ bound, n ≤ bound ↔ ∀ a ∈ es, a.printedNesting ≤ bound := by
  cases es with
  | nil => exact ⟨0, .empty, by simp⟩
  | cons e es =>
    obtain ⟨n, hderives, hn⟩ := exists_derivesCedent e es
    exact ⟨n, .cedent hderives, hn⟩

/-- **What the text of an expression is read as.** -/
theorem read_text_eq_ok_iff {e e' : Expr} (hnames : ∀ name ∈ e.names, Token.IsWord name.toList) :
    read e.text = .ok e' ↔ e.printedNesting ≤ maxNesting ∧ e.reread = e' := by
  have hspells : Token.Spells (e.text.toList ++ []) (e.tokens ++ []) :=
    spells_text hnames (fun _ hc => (nomatch hc)) .nil
  rw [List.append_nil, List.append_nil] at hspells
  have hwritten : e.reread.WrittenAs e.text e.printedNesting :=
    ⟨e.tokens, hspells, e.derives_formula_tokens⟩
  rw [hwritten.read_eq_ok_iff, and_iff_left_of_imp height_reread_le_maxHeight]

end Expr

namespace Store

variable {s : Store} {f : Formula}

/-! ### The text of a sequent -/

theorem spells_cedentText {c : Cedent}
    (hnames : ∀ f ∈ c, ∀ name ∈ (s.tree f).names, Token.IsWord name.toList) {cs : List Char}
    {ts : List Token} (hend : ∀ c ∈ cs.head?, Token.isWordChar c = false)
    (h : Token.Spells cs ts) :
    Token.Spells ((s.cedentText c).toList ++ cs)
      ([Token.comma].intercalate ((c.occurrences.map s.tree).map Expr.tokens) ++ ts) := by
  have hlist := Expr.spells_intercalate (List.forall_mem_map.2 hnames) hend h
  rwa [List.map_map] at hlist

/-- The tokens of the text of a sequent. -/
def sequentTokens (s : Store) (q : Sequent) : List Token :=
  [Token.comma].intercalate ((q.left.occurrences.map s.tree).map Expr.tokens) ++
    .turnstile :: [Token.comma].intercalate ((q.right.occurrences.map s.tree).map Expr.tokens)

/-- The text of a sequent is written with its tokens, also where a side is empty. -/
theorem spells_sequentText {q : Sequent}
    (hnames : ∀ side, ∀ f ∈ q.side side, ∀ name ∈ (s.tree f).names, Token.IsWord name.toList) :
    Token.Spells (s.sequentText q).toList (s.sequentTokens q) := by
  have hright : Token.Spells (if q.right.isEmpty then "" else " " ++ s.cedentText q.right).toList
      ([Token.comma].intercalate ((q.right.occurrences.map s.tree).map Expr.tokens)) := by
    split
    · rename_i hempty
      rw [Cedent.isEmpty_eq] at hempty
      rw [List.isEmpty_iff.1 hempty]
      exact .nil
    · have hcedent : Token.Spells ((s.cedentText q.right).toList ++ []) (_ ++ []) :=
        spells_cedentText (hnames .right) (fun _ hc => (nomatch hc)) .nil
      rw [List.append_nil, List.append_nil] at hcedent
      rw [String.toList_append]
      exact @Token.Spells.blank ' ' _ _ (by decide) hcedent
  have harrow : Token.Spells ("=>".toList ++ _) (.turnstile :: _) := .symbol rfl hright
  rw [sequentText, String.toList_append, String.toList_append, List.append_assoc, sequentTokens]
  split
  · rename_i hempty
    rw [Cedent.isEmpty_eq] at hempty
    rw [List.isEmpty_iff.1 hempty]
    exact harrow
  · rw [String.toList_append, List.append_assoc]
    exact spells_cedentText (hnames .left) (fun c hc => by cases hc; decide)
      (.blank (by decide) harrow)

/-- What the text of a sequent is read as. -/
def rereadSequent (s : Store) (q : Sequent) : SequentExpr where
  left := (q.left.occurrences.map s.tree).map Expr.reread
  right := (q.right.occurrences.map s.tree).map Expr.reread

/-- The text of a sequent is one of the grammar. -/
theorem exists_writtenAs_sequentText {q : Sequent}
    (hnames : ∀ side, ∀ f ∈ q.side side, ∀ name ∈ (s.tree f).names, Token.IsWord name.toList) :
    ∃ n, (s.rereadSequent q).WrittenAs (s.sequentText q) n ∧
      ∀ bound, n ≤ bound ↔ ∀ side, ∀ f ∈ q.side side, (s.tree f).printedNesting ≤ bound := by
  obtain ⟨m, hl, hm⟩ := Expr.exists_derivesSide (q.left.occurrences.map s.tree)
  obtain ⟨n, hr, hn⟩ := Expr.exists_derivesSide (q.right.occurrences.map s.tree)
  refine ⟨max m n, ⟨_, spells_sequentText hnames, .both hl hr⟩, fun bound => ?_⟩
  rw [Nat.max_le, hm, hn, List.forall_mem_map, List.forall_mem_map]
  constructor
  · rintro ⟨hleft, hright⟩ (_ | _)
    · exact hleft
    · exact hright
  · exact fun h => ⟨h .left, h .right⟩

theorem read_sequentText_eq_ok_iff {q : Sequent} {e : SequentExpr}
    (hnames : ∀ side, ∀ f ∈ q.side side, ∀ name ∈ (s.tree f).names, Token.IsWord name.toList) :
    SequentExpr.read (s.sequentText q) = .ok e ↔
      (∀ side, ∀ f ∈ q.side side, (s.tree f).printedNesting ≤ maxNesting) ∧
        s.rereadSequent q = e := by
  obtain ⟨n, hwritten, hn⟩ := exists_writtenAs_sequentText hnames
  have hheights : (∀ side, ∀ f ∈ q.side side, (s.tree f).printedNesting ≤ maxNesting) →
      ∀ e ∈ (s.rereadSequent q).left ++ (s.rereadSequent q).right, e.height ≤ maxHeight := by
    intro h
    simp only [rereadSequent, List.forall_mem_append, List.forall_mem_map]
    exact ⟨fun f hf => Expr.height_reread_le_maxHeight (h .left f hf),
      fun f hf => Expr.height_reread_le_maxHeight (h .right f hf)⟩
  rw [hwritten.read_eq_ok_iff, hn, and_iff_left_of_imp hheights]

/-! ### Building what is there -/

/-- **The tree of a formula is built as that formula**, and nothing is added.  The induction is on
the place of the formula.  Its parts are built first, and what the policy would build in another
form is not in the store. -/
theorem build_reread (hs : s.WellFormed) (hfalse : s.node? .falsum = some (.atom "false"))
    (htrue : s.node? .verum = some (.atom "true")) (hf : s.Owns f) :
    (s.tree f).reread.build s = (f, s) := by
  induction hn : f.index using Nat.strong_induction_on generalizing f with
  | _ n ih =>
  subst hn
  obtain ⟨node, hnode⟩ := hs.owns_iff_node?.1 hf
  have hadmits := hs.admitted (hs.node?_eq_some_iff.1 hnode).1
  have hpart : ∀ part ∈ node.parts, (s.tree part).reread.build s = (part, s) := fun part hpart =>
    ih part.index (index_lt_of_node? hnode hpart) (hs.owns_part hnode hpart) rfl
  rw [tree_eq_nodeTree hnode]
  cases node with
  | atom name =>
    unfold nodeTree Expr.reread
    split
    · rename_i hname
      subst hname
      rw [Expr.build, hs.node?_inj hfalse hnode]
    · split
      · rename_i hname
        subst hname
        rw [Expr.build, hs.node?_inj htrue hnode]
      · exact hs.intern_eq hnode
  | not a =>
    have ha := hpart a (by simp [Node.parts])
    simp only [nodeTree, Expr.reread, Expr.build, ha]
    unfold Store.not
    cases hneg : s.policy.negation with
    | keep => exact hs.intern_eq hnode
    | asImplication => exact absurd hneg hadmits
    | fromImplication => exact hs.intern_eq hnode
  | binary op a b =>
    have ha := hpart a (by simp [Node.parts])
    have hb := hpart b (by simp [Node.parts])
    simp only [nodeTree, Expr.reread, Expr.build, ha, hb]
    cases op with
    | and => exact hs.intern_eq hnode
    | or => exact hs.intern_eq hnode
    | implies =>
      have hkept : ¬(s.policy.negation = .fromImplication ∧ b = .falsum) := hadmits
      rw [Store.binary, Store.implies, if_neg hkept]
      exact hs.intern_eq hnode
    | iff =>
      have hkept : s.policy.equivalence = .keep := hadmits
      rw [Store.binary, Store.iff, hkept]
      exact hs.intern_eq hnode

theorem buildAll_reread (hs : s.WellFormed) (hfalse : s.node? .falsum = some (.atom "false"))
    (htrue : s.node? .verum = some (.atom "true")) {fs : List Formula} (hfs : ∀ f ∈ fs, s.Owns f) :
    Expr.buildAll s ((fs.map s.tree).map Expr.reread) = (fs, s) := by
  induction fs with
  | nil => rfl
  | cons f fs ih =>
    obtain ⟨hf, hfs⟩ := List.forall_mem_cons.1 hfs
    simp only [List.map_cons, Expr.buildAll, build_reread hs hfalse htrue hf, ih hfs]

theorem build_rereadSequent (hs : s.WellFormed) (hfalse : s.node? .falsum = some (.atom "false"))
    (htrue : s.node? .verum = some (.atom "true")) {q : Sequent} (hq : s.OwnsSequent q) :
    (s.rereadSequent q).build s = (q, s) := by
  have hleft : Expr.buildAll s (s.rereadSequent q).left = (q.left.occurrences, s) :=
    buildAll_reread hs hfalse htrue (hq .left)
  have hright : Expr.buildAll s (s.rereadSequent q).right = (q.right.occurrences, s) :=
    buildAll_reread hs hfalse htrue (hq .right)
  simp only [SequentExpr.build, hleft, hright, Sequent.ofLists_occurrences]

/-- The constants of a store that began with the usual names. -/
theorem node?_constants_of_grows {policy : Policy} (h : (ofPolicy policy).Grows s) :
    s.WellFormed ∧ s.node? .falsum = some (.atom "false") ∧
      s.node? .verum = some (.atom "true") := by
  have hfresh : withConstants policy "false" "true" = .ok (ofPolicy policy) := rfl
  obtain ⟨-, -, hnodes⟩ := withConstants_eq_ok hfresh
  obtain ⟨hext, hs⟩ := h.extend_wellFormed (wellFormed_withConstants hfresh)
  have hget : ∀ i : Nat, ∀ node, #[Node.atom "false", .atom "true"][i]? = some node →
      s.nodes[i]? = some node := fun i node hi => hext.nodes (hnodes ▸ hi)
  exact ⟨hs, hs.node?_eq_some_iff.2 ⟨hget 0 _ rfl, rfl⟩, hs.node?_eq_some_iff.2 ⟨hget 1 _ rfl, rfl⟩⟩

/-! ### Reading into a store -/

theorem readFormula_eq_ok_iff {text : String} {result : Formula × Store} :
    s.readFormula text = .ok result ↔ ∃ e, Expr.read text = .ok e ∧ e.build s = result := by
  rw [readFormula]
  cases Expr.read text <;> simp [Except.map]

theorem readSequent_eq_ok_iff {text : String} {result : Sequent × Store} :
    s.readSequent text = .ok result ↔ ∃ e, SequentExpr.read text = .ok e ∧ e.build s = result := by
  rw [readSequent]
  cases SequentExpr.read text <;> simp [Except.map]

theorem readSequent_eq_error_iff {text : String} {error : InputError} :
    s.readSequent text = .error error ↔ SequentExpr.read text = .error error := by
  rw [readSequent]
  cases SequentExpr.read text <;> simp [Except.map]

/-- **Printing and reading are inverse**, as far as the limit on the nesting goes.  A formula whose
atoms are named by words is read back from its own text if and only if that text is not too nested,
and nothing is added to the store; and so is a sequent of such formulas. -/
theorem read_printed_iff {policy : Policy} (hgrows : (ofPolicy policy).Grows s) :
    (∀ f, s.Owns f → (∀ name ∈ (s.tree f).names, Token.IsWord name.toList) →
      ∀ result, s.readFormula (s.text f) = .ok result ↔
        (s.tree f).printedNesting ≤ maxNesting ∧ result = (f, s)) ∧
    ∀ q, s.OwnsSequent q →
      (∀ side, ∀ f ∈ q.side side, ∀ name ∈ (s.tree f).names, Token.IsWord name.toList) →
      ∀ result, s.readSequent (s.sequentText q) = .ok result ↔
        (∀ side, ∀ f ∈ q.side side, (s.tree f).printedNesting ≤ maxNesting) ∧ result = (q, s) := by
  obtain ⟨hs, hfalse, htrue⟩ := node?_constants_of_grows hgrows
  refine ⟨fun f hf hnames result => ?_, fun q hq hnames result => ?_⟩
  · have hbuild := build_reread hs hfalse htrue hf
    rw [readFormula_eq_ok_iff]
    constructor
    · rintro ⟨e, he, rfl⟩
      obtain ⟨hnesting, rfl⟩ := (Expr.read_text_eq_ok_iff hnames).1 he
      exact ⟨hnesting, hbuild⟩
    · rintro ⟨hnesting, rfl⟩
      exact ⟨_, (Expr.read_text_eq_ok_iff hnames).2 ⟨hnesting, rfl⟩, hbuild⟩
  · have hbuild := build_rereadSequent hs hfalse htrue hq
    rw [readSequent_eq_ok_iff]
    constructor
    · rintro ⟨e, he, rfl⟩
      obtain ⟨hnesting, rfl⟩ := (read_sequentText_eq_ok_iff hnames).1 he
      exact ⟨hnesting, hbuild⟩
    · rintro ⟨hnesting, rfl⟩
      exact ⟨_, (read_sequentText_eq_ok_iff hnames).2 ⟨hnesting, rfl⟩, hbuild⟩

/-- A hundred negations of `p` are read back, also twice beside an empty side; one more is not. -/
theorem read_printed_negations :
    ∃ (s t : Store) (f g : Formula),
      s.tree f = Nat.repeat .not 100 (.atom "p") ∧ t.tree g = Nat.repeat .not 101 (.atom "p") ∧
      s.readFormula (s.text f) = .ok (f, s) ∧
      s.readSequent (s.sequentText (.ofLists [] [f, f])) = .ok (.ofLists [] [f, f], s) ∧
      ¬∃ result, t.readFormula (t.text g) = .ok result := by
  -- the policy keeps negations as they are
  have hnormal : ∀ n bot top, Expr.normal ⟨.keep, .keep⟩ bot top (Nat.repeat .not n (.atom "p")) =
      Nat.repeat .not n (.atom "p") := by
    intro n bot top
    induction n with
    | zero => rfl
    | succ n ih => exact congrArg Expr.not ih
  have hbuilt : ∀ n, ∃ (s : Store) (f : Formula), (ofPolicy ⟨.keep, .keep⟩).Grows s ∧ s.Owns f ∧
      s.tree f = Nat.repeat .not n (.atom "p") := by
    intro n
    have hfresh := (reachable_ofPolicy ⟨.keep, .keep⟩).wellFormed
    have hyields := yields_build hfresh (Nat.repeat .not n (.atom "p"))
    exact ⟨_, _, grows_build hfresh _, hyields.owns, hyields.tree.trans (hnormal n _ _)⟩
  have hnesting : ∀ n, (Nat.repeat Expr.not n (.atom "p")).printedNesting = n := by
    intro n
    induction n with
    | zero => rfl
    | succ n ih => rw [Nat.repeat, Expr.printedNesting, ih, Nat.add_comm]
  have hnames : ∀ n, ∀ name ∈ (Nat.repeat Expr.not n (.atom "p")).names,
      Token.IsWord name.toList := by
    intro n
    induction n with
    | zero => exact List.forall_mem_singleton.2 ⟨by decide, by decide⟩
    | succ n ih => exact ih
  obtain ⟨s, f, hs, hf, htree⟩ := hbuilt 100
  obtain ⟨t, g, ht, hg, htree'⟩ := hbuilt 101
  have hmem : ∀ side, ∀ a ∈ (Sequent.ofLists [] [f, f]).side side, a = f := by
    rintro (_ | _) a ha
    · exact absurd (Sequent.mem_left_ofLists.1 ha) List.not_mem_nil
    · simpa using Sequent.mem_right_ofLists.1 ha
  have hwords : ∀ name ∈ (s.tree f).names, Token.IsWord name.toList := htree ▸ hnames 100
  have hlimit : (s.tree f).printedNesting ≤ maxNesting := by
    rw [htree, hnesting]
    decide
  refine ⟨s, t, f, g, htree, htree', ?_, ?_, ?_⟩
  · exact ((read_printed_iff hs).1 f hf hwords _).2 ⟨hlimit, rfl⟩
  · exact ((read_printed_iff hs).2 _ (fun side a ha => hmem side a ha ▸ hf)
      (fun side a ha => hmem side a ha ▸ hwords) _).2
      ⟨fun side a ha => hmem side a ha ▸ hlimit, rfl⟩
  · rintro ⟨result, hresult⟩
    have hle := (((read_printed_iff ht).1 g hg (htree' ▸ hnames 101) _).1 hresult).1
    rw [htree', hnesting] at hle
    exact absurd hle (by decide)

end Store

end SequentCalculus
