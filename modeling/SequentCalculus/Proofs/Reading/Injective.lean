import SequentCalculus.Proofs.Reading.RoundTrip
import SequentCalculus.Rule

/-!
# Texts tell formulas apart

Within the limits of the reader a text can be read back, so that formulas with the same text are the
same.  That they are the same needs no limits.  It is enough that a text is written with one list of
tokens only (`Token.Spells.unique`), and that the tokens of a formula say where the formula ends:

* a list of tokens that begins with those of a formula begins with those of no other formula, and
  the remainder is determined too (`Store.tokens_append_inj`);
* hence formulas that are listed with commas between them can be told from their tokens, as far as
  the list goes (`Store.intercalate_tokens_inj`), and with them both sides of a sequent;
* the name of a rule is itself a word.

All of this is on tokens, where the `=>` between the sides is not to be found inside `<=>`.
-/

namespace SequentCalculus

/-! ### Words and tokens -/

namespace Token

variable {cs : List Char} {ts us : List Token}

/-- **A text is written with one list of tokens only.** -/
theorem Spells.unique (h : Spells cs ts) (h' : Spells cs us) : ts = us :=
  Option.some.inj ((scan_of_spells h).symm.trans (scan_of_spells h'))

theorem ofWord_inj {name name' : String} (h : ofWord name.toList = ofWord name'.toList) :
    name = name' := by
  unfold ofWord at h
  rw [String.ofList_toList, String.ofList_toList] at h
  split at h <;> split at h <;> simp_all

/-- A word is no symbol. -/
theorem spelling?_ofWord (word : List Char) : (ofWord word).spelling? = none := by
  unfold ofWord
  split <;> rfl

end Token

namespace RuleName

/-- A rule is found by its name. -/
theorem ofText?_text (name : RuleName) : ofText? name.text = some name := by
  rcases name with _ | ⟨_ | _, _ | _ | _ | _⟩ <;> decide

theorem text_inj {name name' : RuleName} (h : name.text = name'.text) : name = name' :=
  Option.some.inj (by rw [← ofText?_text, h, ofText?_text])

theorem isWord_text (name : RuleName) : Token.IsWord name.text.toList := by
  rcases name with _ | ⟨_ | _, _ | _ | _ | _⟩ <;> exact ⟨by decide, by decide⟩

end RuleName

namespace Store

variable {s : Store} {f g : Formula} {ts us : List Token}

/-! ### Formulas -/

/-- **The tokens of a formula say where it ends.**  The induction is on the place of the formula;
the first token decides what kind of node it has. -/
theorem tokens_append_inj (hs : s.WellFormed) (hf : s.Owns f) (hg : s.Owns g)
    (h : (s.tree f).tokens ++ ts = (s.tree g).tokens ++ us) : f = g ∧ ts = us := by
  induction hn : f.index using Nat.strong_induction_on generalizing f g ts us with
  | _ n ih =>
  subst hn
  obtain ⟨node, hnode⟩ := hs.owns_iff_node?.1 hf
  obtain ⟨node', hnode'⟩ := hs.owns_iff_node?.1 hg
  have hpart : ∀ part ∈ node.parts, ∀ part' ∈ node'.parts, ∀ {vs ws : List Token},
      (s.tree part).tokens ++ vs = (s.tree part').tokens ++ ws → part = part' ∧ vs = ws :=
    fun part hpart part' hpart' _ _ heq =>
      ih part.index (index_lt_of_node? hnode hpart) (hs.owns_part hnode hpart)
        (hs.owns_part hnode' hpart') heq rfl
  -- a word in front is neither `~` nor a parenthesis
  have hword : ∀ (name : String) (token : Token), token.spelling? ≠ none →
      Token.ofWord name.toList ≠ token := by
    rintro name _ hspelling rfl
    exact hspelling (Token.spelling?_ofWord _)
  rw [tree_eq_nodeTree hnode, tree_eq_nodeTree hnode'] at h
  suffices hsame : node = node' ∧ ts = us from
    ⟨hs.node?_inj hnode (hsame.1 ▸ hnode'), hsame.2⟩
  cases node with
  | atom name =>
    cases node' with
    | atom name' =>
      obtain ⟨hname, hrest⟩ := List.cons.inj h
      exact ⟨congrArg Node.atom (Token.ofWord_inj hname), hrest⟩
    | not a' => exact absurd (List.cons.inj h).1 (hword name _ (by decide))
    | binary op' a' b' => exact absurd (List.cons.inj h).1 (hword name _ (by decide))
  | not a =>
    cases node' with
    | atom name' => exact absurd (List.cons.inj h).1.symm (hword name' _ (by decide))
    | not a' =>
      obtain ⟨rfl, hrest⟩ := hpart a (by simp [Node.parts]) a' (by simp [Node.parts])
        (List.cons.inj h).2
      exact ⟨rfl, hrest⟩
    | binary op' a' b' => exact absurd (List.cons.inj h).1 (by decide)
  | binary op a b =>
    cases node' with
    | atom name' => exact absurd (List.cons.inj h).1.symm (hword name' _ (by decide))
    | not a' => exact absurd (List.cons.inj h).1 (by decide)
    | binary op' a' b' =>
      simp only [nodeTree, Expr.tokens, List.cons_append, List.append_assoc, List.cons.injEq,
        true_and] at h
      obtain ⟨rfl, hinner⟩ := hpart a (by simp [Node.parts]) a' (by simp [Node.parts]) h
      obtain ⟨hop, hright⟩ := List.cons.inj hinner
      obtain ⟨rfl, hclose⟩ := hpart b (by simp [Node.parts]) b' (by simp [Node.parts]) hright
      exact ⟨by rw [Token.op.inj hop], (List.cons.inj hclose).2⟩

/-! ### Sequents -/

/-- The tokens of the formulas that follow the first one of a side, each after a comma. -/
def tokensAfter (s : Store) (fs : List Formula) : List Token :=
  fs.flatMap fun f => .comma :: (s.tree f).tokens

theorem intercalate_tokens_cons (s : Store) (f : Formula) (fs : List Formula) :
    [Token.comma].intercalate (((f :: fs).map s.tree).map Expr.tokens) =
      (s.tree f).tokens ++ s.tokensAfter fs := by
  induction fs generalizing f with
  | nil => simp [tokensAfter]
  | cons g fs ih =>
    have hrest := ih g
    simp only [List.map_cons, tokensAfter, List.flatMap_cons] at hrest ⊢
    rw [List.intercalate_cons_cons, hrest]
    simp

theorem tokensAfter_append_inj (hs : s.WellFormed) {fs gs : List Formula}
    (hfs : ∀ f ∈ fs, s.Owns f) (hgs : ∀ g ∈ gs, s.Owns g) (hts : Reading.SideEnds ts)
    (hus : Reading.SideEnds us) (h : s.tokensAfter fs ++ ts = s.tokensAfter gs ++ us) :
    fs = gs ∧ ts = us := by
  induction fs generalizing gs with
  | nil =>
    cases gs with
    | nil => exact ⟨rfl, h⟩
    | cons g gs =>
      obtain rfl : ts = _ := h
      exact absurd (hts _ rfl) (by decide)
  | cons f fs ih =>
    cases gs with
    | nil =>
      obtain rfl : _ = us := h
      exact absurd (hus _ rfl) (by decide)
    | cons g gs =>
      obtain ⟨hf, hfs'⟩ := List.forall_mem_cons.1 hfs
      obtain ⟨hg, hgs'⟩ := List.forall_mem_cons.1 hgs
      simp only [tokensAfter, List.flatMap_cons, List.cons_append, List.append_assoc,
        List.cons.injEq, true_and] at h
      obtain ⟨rfl, hrest⟩ := tokens_append_inj hs hf hg h
      obtain ⟨rfl, hend⟩ := ih hfs' hgs' hrest
      exact ⟨rfl, hend⟩

/-- A side that ends at once has no formulas. -/
theorem not_sideEnds_tokens_append (e : Expr) (ts : List Token) :
    ¬Reading.SideEnds (e.tokens ++ ts) := by
  obtain ⟨t, vs, heq, ht⟩ := e.derives_tokens.exists_head
  rw [heq]
  exact fun hends => ht (hends t rfl)

/-- **Listed formulas can be told from their tokens**, as far as the side of the sequent goes. -/
theorem intercalate_tokens_inj (hs : s.WellFormed) {fs gs : List Formula}
    (hfs : ∀ f ∈ fs, s.Owns f) (hgs : ∀ g ∈ gs, s.Owns g) (hts : Reading.SideEnds ts)
    (hus : Reading.SideEnds us)
    (h : [Token.comma].intercalate ((fs.map s.tree).map Expr.tokens) ++ ts =
      [Token.comma].intercalate ((gs.map s.tree).map Expr.tokens) ++ us) :
    fs = gs ∧ ts = us := by
  cases fs with
  | nil =>
    cases gs with
    | nil => exact ⟨rfl, h⟩
    | cons g gs =>
      rw [intercalate_tokens_cons, List.append_assoc] at h
      obtain rfl : ts = _ := h
      exact absurd hts (not_sideEnds_tokens_append _ _)
  | cons f fs =>
    cases gs with
    | nil =>
      rw [intercalate_tokens_cons, List.append_assoc] at h
      obtain rfl : _ = us := h
      exact absurd hus (not_sideEnds_tokens_append _ _)
    | cons g gs =>
      obtain ⟨hf, hfs'⟩ := List.forall_mem_cons.1 hfs
      obtain ⟨hg, hgs'⟩ := List.forall_mem_cons.1 hgs
      rw [intercalate_tokens_cons, intercalate_tokens_cons, List.append_assoc,
        List.append_assoc] at h
      obtain ⟨rfl, hrest⟩ := tokens_append_inj hs hf hg h
      obtain ⟨rfl, hend⟩ := tokensAfter_append_inj hs hfs' hgs' hts hus hrest
      exact ⟨rfl, hend⟩

theorem sequentTokens_inj (hs : s.WellFormed) {q q' : Sequent} (hq : s.OwnsSequent q)
    (hq' : s.OwnsSequent q') (h : s.sequentTokens q = s.sequentTokens q') : q = q' := by
  obtain ⟨hleft, hrest⟩ := intercalate_tokens_inj hs (hq .left) (hq' .left)
    (Reading.sideEnds_turnstile _) (Reading.sideEnds_turnstile _) h
  have htokens := congrArg (· ++ []) (List.cons.inj hrest).2
  obtain ⟨hright, -⟩ := intercalate_tokens_inj hs (hq .right) (hq' .right)
    Reading.sideEnds_nil Reading.sideEnds_nil htokens
  have hleft : q.left.occurrences = q'.left.occurrences := hleft
  have hright : q.right.occurrences = q'.right.occurrences := hright
  rw [← q.ofLists_occurrences, ← q'.ofLists_occurrences, hleft, hright]

/-! ### Rules -/

/-- The tokens of the text of a rule: its name, which is a word, and its principal formula. -/
def ruleTokens (s : Store) (r : Rule) : List Token :=
  .ofWord r.name.text.toList :: (r.principal?.elim [] fun f => (s.tree f).tokens)

theorem spells_ruleText {r : Rule}
    (hnames : ∀ f ∈ r.principal?, ∀ name ∈ (s.tree f).names, Token.IsWord name.toList) :
    Token.Spells (s.ruleText r).toList (s.ruleTokens r) := by
  cases r with
  | ax =>
    have hrule := Token.Spells.word (RuleName.isWord_text .ax) (by simp) .nil
    rwa [List.append_nil] at hrule
  | logical side shape f =>
    have hformula : Token.Spells ((s.text f).toList ++ []) ((s.tree f).tokens ++ []) :=
      Expr.spells_text (hnames f rfl) (by simp) .nil
    have hblank : Token.Spells (' ' :: ((s.text f).toList ++ [])) ((s.tree f).tokens ++ []) :=
      .blank (by decide) hformula
    have hrule := Token.Spells.word (RuleName.isWord_text (.logical side shape))
      (fun c hc => by cases hc; decide) hblank
    simpa [ruleText, ruleTokens, Rule.name, Rule.principal?] using hrule

theorem ruleTokens_inj (hs : s.WellFormed) {r r' : Rule} (hr : ∀ f ∈ r.principal?, s.Owns f)
    (hr' : ∀ f ∈ r'.principal?, s.Owns f) (h : s.ruleTokens r = s.ruleTokens r') : r = r' := by
  obtain ⟨hword, hformula⟩ := List.cons.inj h
  have hname : r.name = r'.name := RuleName.text_inj (Token.ofWord_inj hword)
  cases r with
  | ax =>
    cases r' with
    | ax => rfl
    | logical side' shape' g => cases hname
  | logical side shape f =>
    cases r' with
    | ax => cases hname
    | logical side' shape' g =>
      cases hname
      obtain ⟨rfl, -⟩ := tokens_append_inj hs (hr f rfl) (hr' g rfl)
        (congrArg (· ++ []) hformula)
      rfl

/-! ### Texts -/

/-- The names in a formula are names of atoms of the store. -/
theorem WellFormed.atom_mem_nodes_of_mem_names (hs : s.WellFormed) (hf : s.Owns f) {name : String}
    (hname : name ∈ (s.tree f).names) : .atom name ∈ s.nodes := by
  induction hn : f.index using Nat.strong_induction_on generalizing f with
  | _ n ih =>
  subst hn
  obtain ⟨node, hnode⟩ := hs.owns_iff_node?.1 hf
  have hpart : ∀ part ∈ node.parts, name ∈ (s.tree part).names → .atom name ∈ s.nodes :=
    fun part hpart hname =>
      ih part.index (index_lt_of_node? hnode hpart) (hs.owns_part hnode hpart) hname rfl
  rw [tree_eq_nodeTree hnode] at hname
  cases node with
  | atom name' =>
    obtain rfl := List.mem_singleton.1 hname
    exact Array.mem_of_getElem? (hs.node?_eq_some_iff.1 hnode).1
  | not a => exact hpart a (by simp [Node.parts]) hname
  | binary op a b =>
    rcases List.mem_append.1 hname with hleft | hright
    · exact hpart a (by simp [Node.parts]) hleft
    · exact hpart b (by simp [Node.parts]) hright

/-- **Printing is injective at every depth.**  In a store whose atoms, the constants among them, are
named by words, different formulas have different texts, and so have different sequents and
different rules. -/
theorem printing_is_injective (hs : s.Reachable)
    (hnames : ∀ name, .atom name ∈ s.nodes → Token.IsWord name.toList) :
    (∀ f g, s.Owns f → s.Owns g → (s.text f = s.text g ↔ f = g)) ∧
    (∀ q q', s.OwnsSequent q → s.OwnsSequent q' → (s.sequentText q = s.sequentText q' ↔ q = q')) ∧
    ∀ r r' : Rule, (∀ f ∈ r.principal?, s.Owns f) → (∀ f ∈ r'.principal?, s.Owns f) →
      (s.ruleText r = s.ruleText r' ↔ r = r') := by
  have hwf := hs.wellFormed
  have hwords : ∀ f, s.Owns f → ∀ name ∈ (s.tree f).names, Token.IsWord name.toList :=
    fun f hf name hname => hnames name (hwf.atom_mem_nodes_of_mem_names hf hname)
  refine ⟨fun f g hf hg => ⟨fun h => ?_, congrArg s.text⟩,
    fun q q' hq hq' => ⟨fun h => ?_, congrArg s.sequentText⟩,
    fun r r' hr hr' => ⟨fun h => ?_, congrArg s.ruleText⟩⟩
  · have hspells : ∀ f, s.Owns f →
        Token.Spells ((s.text f).toList ++ []) ((s.tree f).tokens ++ []) :=
      fun f hf => Expr.spells_text (hwords f hf) (by simp) .nil
    have htokens := (hspells f hf).unique (h ▸ hspells g hg)
    exact (tokens_append_inj hwf hf hg htokens).1
  · have hspells : ∀ q, s.OwnsSequent q →
        Token.Spells (s.sequentText q).toList (s.sequentTokens q) :=
      fun q hq => spells_sequentText fun side f hf => hwords f (hq side f hf)
    exact sequentTokens_inj hwf hq hq' ((hspells q hq).unique (h ▸ hspells q' hq'))
  · have hspells : ∀ r : Rule, (∀ f ∈ r.principal?, s.Owns f) →
        Token.Spells (s.ruleText r).toList (s.ruleTokens r) :=
      fun r hr => spells_ruleText fun f hf => hwords f (hr f hf)
    exact ruleTokens_inj hwf hr hr' ((hspells r hr).unique (h ▸ hspells r' hr'))

/-- The same formula with an equivalence inside, once on either side of the arrow, and the two rules
for its negation. -/
theorem printing_is_injective_around_equivalence :
    let built := Expr.build (constants ⟨.keep, .keep⟩ "F" "T")
      (.not (.binary .iff (.atom "p") .falsum))
    let f := built.1
    let s := built.2
    s.Reachable ∧ (∀ name, .atom name ∈ s.nodes → Token.IsWord name.toList) ∧ s.Owns f ∧
      s.text f = "~(p <=> F)" ∧ (s.text f = s.text .falsum ↔ f = .falsum) ∧
      s.sequentText (.ofLists [f] []) ≠ s.sequentText (.ofLists [] [f]) ∧
      s.ruleText (.logical .left .not f) ≠ s.ruleText (.logical .right .not f) := by
  intro built f s
  have hfresh : withConstants ⟨.keep, .keep⟩ "F" "T" = .ok (constants ⟨.keep, .keep⟩ "F" "T") := rfl
  have hreachable : s.Reachable :=
    ⟨_, _, _, _, hfresh, grows_build (wellFormed_withConstants hfresh) _⟩
  have hnodes : s.nodes.toList = [.atom "F", .atom "T", .atom "p",
      .binary .iff ⟨2, .atomic⟩ .falsum, .not ⟨3, .compound (.bin .iff)⟩] := by decide
  have hnames : ∀ name, .atom name ∈ s.nodes → Token.IsWord name.toList := by
    intro name hname
    rw [← Array.mem_toList_iff, hnodes] at hname
    simp only [List.mem_cons, Node.atom.injEq, reduceCtorEq, List.not_mem_nil, or_false] at hname
    rcases hname with rfl | rfl | rfl <;> exact ⟨by decide, by decide⟩
  have hf : s.Owns f := by decide
  obtain ⟨hformulas, hsequents, hrules⟩ := printing_is_injective hreachable hnames
  have howns : ∀ left right : List Formula, (∀ g ∈ left ++ right, g = f) →
      s.OwnsSequent (.ofLists left right) := by
    rintro left right hall (_ | _) g hg
    · exact hall g (List.mem_append_left _ (Sequent.mem_left_ofLists.1 hg)) ▸ hf
    · exact hall g (List.mem_append_right _ (Sequent.mem_right_ofLists.1 hg)) ▸ hf
  have hprincipal : ∀ side, ∀ g ∈ (Rule.logical side .not f).principal?, s.Owns g := by
    rintro side _ ⟨⟩
    exact hf
  refine ⟨hreachable, hnames, hf, by decide +kernel, hformulas f .falsum hf (by decide), ?_, ?_⟩
  · rw [ne_eq, hsequents _ _ (howns [f] [] (by simp)) (howns [] [f] (by simp))]
    decide
  · rw [ne_eq, hrules _ _ (hprincipal .left) (hprincipal .right)]
    decide

end Store

end SequentCalculus
