import SequentCalculus.Expr
import SequentCalculus.InputError
import SequentCalculus.Token

/-!
# Reading formulas and sequents

The grammar, over tokens:

```text
sequent ::= cedent? ("=>" cedent?)?       everything on the right if there is no "=>"
cedent  ::= formula ("," formula)*
formula ::= implies ("<=>" implies)*      left associative
implies ::= or ("->" implies)?            right associative
or      ::= and ("|" and)*                left associative
and     ::= unary ("&" unary)*            left associative
unary   ::= "~" unary | "(" formula ")" | "false" | "true" | word
```

Two limits keep what is read small.  A `unary` stands inside at most `maxNesting` negations,
parentheses and right-hand sides of `->`, and no expression is higher than `maxHeight`.

The first limit is also what the reader recurses on: `level n` reads with `n` nestings left, and
every way into a deeper `unary` goes through `level (n - 1)`.  Within one level, the chains of
left associative operators only consume tokens, and every reader hands back a remainder that it
proves to be shorter (`Parsed.shorter`).
-/

namespace SequentCalculus

namespace Reading

/-- The largest number of negations, parentheses and right-hand sides of `->` around a `unary`. -/
def maxNesting : Nat := 100

/-- The largest height of an expression. -/
def maxHeight : Nat := 1000

/-- Something read from the front of a list of tokens, with fewer than `bound` tokens left. -/
structure Parsed (α : Type) (bound : Nat) where
  value : α
  rest : List Token
  shorter : rest.length < bound

/-- The same result, under a laxer bound on what is left. -/
def Parsed.weaken {α : Type} {m n : Nat} (p : Parsed α m) (h : m ≤ n) : Parsed α n :=
  ⟨p.value, p.rest, Nat.lt_of_lt_of_le p.shorter h⟩

/-- Reads an `α` from the front of a list of tokens and uses up at least one of them. -/
abbrev Reader (α : Type) : Type :=
  (ts : List Token) → Option (Parsed α ts.length)

/-- An expression, unless it is too high. -/
def limited (e : Expr) : Option Expr :=
  if e.height ≤ maxHeight then some e else none

/-- The rest of a left associative chain: `left` has been read, and an operand follows every
further `op`. -/
def chainAfter (op : BinOp) (operand : Reader Expr) (left : Expr) (ts : List Token) :
    Option (Parsed Expr (ts.length + 1)) :=
  match ts with
  | .op o :: ts =>
    if o = op then
      match operand ts with
      | none => none
      | some right =>
        match limited (.binary op left right.value) with
        | none => none
        | some e =>
          (chainAfter op operand e right.rest).map
            (·.weaken (by have := right.shorter; simp only [List.length_cons]; omega))
    else some ⟨left, .op o :: ts, Nat.lt_succ_self _⟩
  | ts => some ⟨left, ts, Nat.lt_succ_self _⟩
termination_by ts.length
decreasing_by have := right.shorter; simp only [List.length_cons]; omega

/-- A left associative chain of operands joined by `op`. -/
def chain (op : BinOp) (operand : Reader Expr) : Reader Expr := fun ts =>
  match operand ts with
  | none => none
  | some first =>
    (chainAfter op operand first.value first.rest).map (·.weaken first.shorter)

/-- The readers that work with a given number of nestings left. -/
structure Level where
  unary : Reader Expr
  implies : Reader Expr

/-- Reads a `formula`. -/
def Level.formula (level : Level) : Reader Expr :=
  chain .iff level.implies

/-- Reads a `unary` whose operand, if any, is left to the level below. -/
def unaryOver (below : Level) : Reader Expr
  | .not :: ts =>
    match below.unary ts with
    | none => none
    | some operand =>
      (limited (.not operand.value)).map fun e =>
        ⟨e, operand.rest, Nat.lt_succ_of_lt operand.shorter⟩
  | .lparen :: ts =>
    match below.formula ts with
    | some ⟨e, .rparen :: rest, shorter⟩ =>
      some ⟨e, rest, Nat.lt_succ_of_lt (Nat.lt_of_succ_lt shorter)⟩
    | _ => none
  | .falsum :: ts => some ⟨.falsum, ts, Nat.lt_succ_self _⟩
  | .verum :: ts => some ⟨.verum, ts, Nat.lt_succ_self _⟩
  | .ident name :: ts => some ⟨.atom name, ts, Nat.lt_succ_self _⟩
  | _ => none

/-- Reads an `implies` whose right-hand side, if any, is left to the level below. -/
def impliesOver (unary : Reader Expr) (below : Level) : Reader Expr := fun ts =>
  match chain .or (chain .and unary) ts with
  | none => none
  | some ⟨left, .op .implies :: rest, shorter⟩ =>
    match below.implies rest with
    | none => none
    | some right =>
      (limited (.binary .implies left right.value)).map fun e =>
        ⟨e, right.rest, Nat.lt_trans right.shorter (Nat.lt_of_succ_lt shorter)⟩
  | some left => some left

/-- The readers with `n` nestings left; with none left, nothing can be read. -/
def level : Nat → Level
  | 0 => ⟨fun _ => none, fun _ => none⟩
  | n + 1 =>
    let below := level n
    let unary := unaryOver below
    ⟨unary, impliesOver unary below⟩

/-- Reads a `formula` from the front of a list of tokens. -/
def formula : Reader Expr :=
  (level (maxNesting + 1)).formula

/-- The formulas that follow, each after a comma. -/
def formulasAfter (ts : List Token) : Option (Parsed (List Expr) (ts.length + 1)) :=
  match ts with
  | .comma :: ts =>
    match formula ts with
    | none => none
    | some first =>
      (formulasAfter first.rest).map fun others =>
        ⟨first.value :: others.value, others.rest, by
          have := first.shorter; have := others.shorter
          simp only [List.length_cons]; omega⟩
  | ts => some ⟨[], ts, Nat.lt_succ_self _⟩
termination_by ts.length
decreasing_by have := first.shorter; simp only [List.length_cons]; omega

/-- Reads a `cedent?`, which is missing where the text or its left side ends. -/
def cedent (ts : List Token) : Option (Parsed (List Expr) (ts.length + 1)) :=
  match ts with
  | [] => some ⟨[], [], Nat.lt_succ_self _⟩
  | .turnstile :: rest => some ⟨[], .turnstile :: rest, Nat.lt_succ_self _⟩
  | ts =>
    match formula ts with
    | none => none
    | some first =>
      (formulasAfter first.rest).map fun others =>
        ⟨first.value :: others.value, others.rest, by
          have := first.shorter; have := others.shorter; omega⟩

end Reading

/-- The expression that a list of tokens spells out. -/
def Expr.ofTokens? (ts : List Token) : Option Expr :=
  match Reading.formula ts with
  | some ⟨e, [], _⟩ => some e
  | _ => none

/-- The sequent that a list of tokens spells out. -/
def SequentExpr.ofTokens? (ts : List Token) : Option SequentExpr :=
  match Reading.cedent ts with
  | none => none
  | some ⟨right, [], _⟩ => some ⟨[], right⟩
  | some ⟨left, .turnstile :: ts, _⟩ =>
    match Reading.cedent ts with
    | some ⟨right, [], _⟩ => some ⟨left, right⟩
    | _ => none
  | some _ => none

/-- Reads a formula. -/
def Expr.read (text : String) : Except InputError Expr :=
  match (Token.scan text.toList).bind Expr.ofTokens? with
  | some e => .ok e
  | none => .error (.malformed text)

/-- Reads a sequent. -/
def SequentExpr.read (text : String) : Except InputError SequentExpr :=
  match (Token.scan text.toList).bind SequentExpr.ofTokens? with
  | some e => .ok e
  | none => .error (.malformed text)

end SequentCalculus
