import SequentCalculus.Reading

/-!
# The grammar

What a text means is said here without a reader, in two relations.  `Token.Spells` relates a text
to the tokens that it is written with, and `Reading.Derives` relates tokens to the tree that they
have in the grammar, one rule for each production:

```text
formula ::= formula "<=>" implies | implies
implies ::= or "->" implies | or
or      ::= or "|" and | and
and     ::= and "&" unary | unary
unary   ::= "~" unary | "(" formula ")" | "false" | "true" | word
```

The repetitions `implies ("<=>" implies)*` are written as left recursion, which is what makes the
operators left associative.  A derivation carries its nesting, the largest number of negations,
parentheses and right-hand sides of `->` around one of its `unary`s.  The relations know no limits:
these are conditions on the nesting and on the height of the tree.

Scanning a text gives the tokens that it spells (`Token.scan_eq_some_iff`).
-/

namespace SequentCalculus

/-! ### Tokens of a text -/

namespace Token

/-- How a symbol is written; words have no fixed spelling. -/
def spelling? : Token → Option String
  | .not => some "~"
  | .op o => some o.symbol
  | .turnstile => some "=>"
  | .comma => some ","
  | .lparen => some "("
  | .rparen => some ")"
  | .falsum => none
  | .verum => none
  | .ident _ => none

/-- A word: a letter or an underscore, and then letters, digits and underscores. -/
def IsWord : List Char → Prop
  | [] => False
  | c :: cs => isWordStart c = true ∧ cs.all isWordChar = true

/-- The text is written with these tokens: blanks separate them, and no word goes on after its
end. -/
inductive Spells : List Char → List Token → Prop
  | nil : Spells [] []
  | blank {c : Char} {cs : List Char} {ts : List Token} (hc : isSpace c = true)
      (h : Spells cs ts) : Spells (c :: cs) ts
  | symbol {token : Token} {spelling : String} {cs : List Char} {ts : List Token}
      (hspelling : token.spelling? = some spelling) (h : Spells cs ts) :
      Spells (spelling.toList ++ cs) (token :: ts)
  | word {word cs : List Char} {ts : List Token} (hword : IsWord word)
      (hend : ∀ c ∈ cs.head?, isWordChar c = false) (h : Spells cs ts) :
      Spells (word ++ cs) (ofWord word :: ts)

variable {c : Char} {cs : List Char} {ts : List Token}

theorem spelling?_of_symbol? {token : Token} {extra : Nat}
    (h : symbol? c cs = some (token, extra)) :
    ∃ spelling, token.spelling? = some spelling ∧ c :: cs = spelling.toList ++ cs.drop extra := by
  unfold symbol? at h
  split at h <;> cases h <;> exact ⟨_, rfl, rfl⟩

theorem symbol?_of_spelling? {token : Token} {spelling : String}
    (h : token.spelling? = some spelling) :
    ∃ c ds, spelling.toList = c :: ds ∧ isSpace c = false ∧ isWordStart c = false ∧
      ∀ cs, symbol? c (ds ++ cs) = some (token, ds.length) := by
  cases token with
  | op o => cases o <;> cases h <;> exact ⟨_, _, rfl, by decide, by decide, fun _ => rfl⟩
  | falsum => cases h
  | verum => cases h
  | ident name => cases h
  | _ => cases h; exact ⟨_, _, rfl, by decide, by decide, fun _ => rfl⟩

theorem isSpace_of_isWordStart (h : isWordStart c = true) : isSpace c = false := by
  refine Bool.eq_false_iff.2 fun hspace => ?_
  simp only [isSpace, Bool.or_eq_true, beq_iff_eq] at hspace
  rcases hspace with ((rfl | rfl) | rfl) | rfl <;> exact absurd h (by decide)

theorem spells_of_scan (h : scan cs = some ts) : Spells cs ts := by
  fun_induction scan cs generalizing ts with
  | case1 =>
    cases h
    exact .nil
  | case2 c cs hspace ih => exact .blank hspace (ih h)
  | case3 c cs hspace hstart ih =>
    obtain ⟨ts, hts, rfl⟩ := Option.map_eq_some_iff.1 h
    have hsplit : c :: cs = (c :: cs.takeWhile isWordChar) ++ cs.dropWhile isWordChar := by
      rw [List.cons_append, List.takeWhile_append_dropWhile]
    rw [hsplit]
    refine .word ⟨hstart, List.all_takeWhile⟩ (fun d hd => ?_) (ih hts)
    have hnot := List.head?_dropWhile_not isWordChar cs
    rwa [hd] at hnot
  | case4 c cs hspace hstart token extra hsymbol ih =>
    obtain ⟨ts, hts, rfl⟩ := Option.map_eq_some_iff.1 h
    obtain ⟨spelling, hspelling, hsplit⟩ := spelling?_of_symbol? hsymbol
    rw [hsplit]
    exact .symbol hspelling (ih hts)
  | case5 => cases h

theorem scan_of_spells (h : Spells cs ts) : scan cs = some ts := by
  induction h with
  | nil => rw [scan]
  | blank hc h ih => rw [scan, if_pos hc, ih]
  | symbol hspelling h ih =>
    obtain ⟨c, ds, hsplit, hspace, hstart, hsymbol⟩ := symbol?_of_spelling? hspelling
    rw [hsplit, List.cons_append, scan, hspace, hstart, hsymbol]
    simp [ih]
  | @word word cs ts hword hend h ih =>
    cases word with
    | nil => exact hword.elim
    | cons c word =>
      obtain ⟨hstart, hchars⟩ := hword
      have hchars := List.all_eq_true.1 hchars
      -- the word is taken as a whole, and nothing after it
      have hstop : cs.takeWhile isWordChar = [] ∧ cs.dropWhile isWordChar = cs := by
        cases cs with
        | nil => exact ⟨rfl, rfl⟩
        | cons d cs => simp [hend d rfl]
      rw [List.cons_append, scan, isSpace_of_isWordStart hstart, hstart,
        List.takeWhile_append_of_pos hchars, List.dropWhile_append_of_pos hchars, hstop.1, hstop.2,
        List.append_nil, ih]
      rfl

/-- **Scanning finds the tokens that a text spells.** -/
theorem scan_eq_some_iff : scan cs = some ts ↔ Spells cs ts :=
  ⟨spells_of_scan, scan_of_spells⟩

end Token

/-! ### Derivations -/

namespace Reading

/-- The nonterminals of formulas. -/
inductive Phrase where
  | formula
  | implies
  | or
  | and
  | unary

/-- The tokens are a phrase of the given kind, with this nesting and this tree. -/
inductive Derives : Phrase → Nat → List Token → Expr → Prop
  /-- `formula ::= implies` -/
  | formula_implies {n : Nat} {ts : List Token} {e : Expr} (h : Derives .implies n ts e) :
      Derives .formula n ts e
  /-- `formula ::= formula "<=>" implies` -/
  | formula_iff {m n : Nat} {ls rs : List Token} {l r : Expr} (hl : Derives .formula m ls l)
      (hr : Derives .implies n rs r) :
      Derives .formula (max m n) (ls ++ .op .iff :: rs) (.binary .iff l r)
  /-- `implies ::= or` -/
  | implies_or {n : Nat} {ts : List Token} {e : Expr} (h : Derives .or n ts e) :
      Derives .implies n ts e
  /-- `implies ::= or "->" implies` -/
  | implies_implies {m n : Nat} {ls rs : List Token} {l r : Expr} (hl : Derives .or m ls l)
      (hr : Derives .implies n rs r) :
      Derives .implies (max m (n + 1)) (ls ++ .op .implies :: rs) (.binary .implies l r)
  /-- `or ::= and` -/
  | or_and {n : Nat} {ts : List Token} {e : Expr} (h : Derives .and n ts e) : Derives .or n ts e
  /-- `or ::= or "|" and` -/
  | or_or {m n : Nat} {ls rs : List Token} {l r : Expr} (hl : Derives .or m ls l)
      (hr : Derives .and n rs r) :
      Derives .or (max m n) (ls ++ .op .or :: rs) (.binary .or l r)
  /-- `and ::= unary` -/
  | and_unary {n : Nat} {ts : List Token} {e : Expr} (h : Derives .unary n ts e) :
      Derives .and n ts e
  /-- `and ::= and "&" unary` -/
  | and_and {m n : Nat} {ls rs : List Token} {l r : Expr} (hl : Derives .and m ls l)
      (hr : Derives .unary n rs r) :
      Derives .and (max m n) (ls ++ .op .and :: rs) (.binary .and l r)
  /-- `unary ::= "~" unary` -/
  | unary_not {n : Nat} {ts : List Token} {e : Expr} (h : Derives .unary n ts e) :
      Derives .unary (n + 1) (.not :: ts) (.not e)
  /-- `unary ::= "(" formula ")"` -/
  | unary_paren {n : Nat} {ts : List Token} {e : Expr} (h : Derives .formula n ts e) :
      Derives .unary (n + 1) (.lparen :: (ts ++ [.rparen])) e
  /-- `unary ::= "false"` -/
  | unary_falsum : Derives .unary 0 [.falsum] .falsum
  /-- `unary ::= "true"` -/
  | unary_verum : Derives .unary 0 [.verum] .verum
  /-- `unary ::= word` -/
  | unary_ident (name : String) : Derives .unary 0 [.ident name] (.atom name)

/-- `cedent ::= formula | formula "," cedent`, with the nesting of the most nested formula. -/
inductive DerivesCedent : Nat → List Token → List Expr → Prop
  | single {n : Nat} {ts : List Token} {e : Expr} (h : Derives .formula n ts e) :
      DerivesCedent n ts [e]
  | cons {m n : Nat} {ts us : List Token} {e : Expr} {es : List Expr}
      (h : Derives .formula m ts e) (hs : DerivesCedent n us es) :
      DerivesCedent (max m n) (ts ++ .comma :: us) (e :: es)

/-- One side of a sequent, `cedent?`. -/
inductive DerivesSide : Nat → List Token → List Expr → Prop
  | empty : DerivesSide 0 [] []
  | cedent {n : Nat} {ts : List Token} {es : List Expr} (h : DerivesCedent n ts es) :
      DerivesSide n ts es

/-- `sequent ::= cedent? | cedent? "=>" cedent?`; a single side is the right one. -/
inductive DerivesSequent : Nat → List Token → SequentExpr → Prop
  | right {n : Nat} {ts : List Token} {es : List Expr} (h : DerivesSide n ts es) :
      DerivesSequent n ts ⟨[], es⟩
  | both {m n : Nat} {ls rs : List Token} {l r : List Expr} (hl : DerivesSide m ls l)
      (hr : DerivesSide n rs r) :
      DerivesSequent (max m n) (ls ++ .turnstile :: rs) ⟨l, r⟩

end Reading

end SequentCalculus
