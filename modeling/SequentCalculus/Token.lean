import SequentCalculus.Connective

/-!
# Tokens

The words and symbols of which formulas and sequents are written.  Blanks (space, tab, carriage
return and line feed, and no other) only separate tokens.  A word is an ASCII letter or an
underscore with all the letters, digits and underscores that follow it; the words `false` and
`true` are the constants.
-/

namespace SequentCalculus

/-- A word or a symbol of the language of sequents. -/
inductive Token where
  /-- `~` -/
  | not
  /-- `&`, `|`, `->` or `<=>` -/
  | op (op : BinOp)
  /-- `=>` -/
  | turnstile
  /-- `,` -/
  | comma
  /-- `(` -/
  | lparen
  /-- `)` -/
  | rparen
  /-- The word `false`. -/
  | falsum
  /-- The word `true`. -/
  | verum
  /-- Any other word. -/
  | ident (name : String)
  deriving DecidableEq, Repr

namespace Token

/-- The blanks between tokens. -/
def isSpace (c : Char) : Bool :=
  c == ' ' || c == '\t' || c == '\r' || c == '\n'

/-- The characters with which a word begins. -/
def isWordStart (c : Char) : Bool :=
  c.isAlpha || c == '_'

/-- The characters that continue a word. -/
def isWordChar (c : Char) : Bool :=
  c.isAlphanum || c == '_'

/-- The token that a word stands for. -/
def ofWord (word : List Char) : Token :=
  match String.ofList word with
  | "false" => .falsum
  | "true" => .verum
  | name => .ident name

/-- The symbol that begins with the first of the given characters, and how many of the characters
after it belong to the symbol. -/
def symbol? : Char → List Char → Option (Token × Nat)
  | '~', _ => some (.not, 0)
  | '&', _ => some (.op .and, 0)
  | '|', _ => some (.op .or, 0)
  | ',', _ => some (.comma, 0)
  | '(', _ => some (.lparen, 0)
  | ')', _ => some (.rparen, 0)
  | '-', '>' :: _ => some (.op .implies, 1)
  | '=', '>' :: _ => some (.turnstile, 1)
  | '<', '=' :: '>' :: _ => some (.op .iff, 2)
  | _, _ => none

theorem length_dropWhile_le (p : Char → Bool) (cs : List Char) :
    (cs.dropWhile p).length ≤ cs.length :=
  (List.dropWhile_sublist p).length_le

/-- The tokens of a text; `none` if some part of it is neither blank nor a token. -/
def scan : List Char → Option (List Token)
  | [] => some []
  | c :: cs =>
    if isSpace c then scan cs
    else if isWordStart c then
      (scan (cs.dropWhile isWordChar)).map (ofWord (c :: cs.takeWhile isWordChar) :: ·)
    else
      match symbol? c cs with
      | some (token, extra) => (scan (cs.drop extra)).map (token :: ·)
      | none => none
termination_by cs => cs.length
decreasing_by
  · simp
  · exact Nat.lt_succ_of_le (length_dropWhile_le _ _)
  · simp only [List.length_drop, List.length_cons]
    omega

end Token

end SequentCalculus
