import SequentCalculus.Reading
import SequentCalculus.Text.Blank

/-!
# Blanks around a text

A session takes the blanks off the ends of what it is given, and more characters are blank to it
than to the grammar.  This does no harm to a text that can be read.  A blank is neither part of a
word nor of a symbol, so a text can be cut before it (`Token.scan_append_blank`), and one that
stands at the end of a text that can be read is one that separates tokens
(`Token.scan_of_cons_blank`, `Token.scan_of_append_blank`).  What a text spells out is therefore
also spelled out by the trimmed text (`SequentExpr.read_trim`).  The converse is not true, since a
text may begin with a blank that the grammar does not know.
-/

namespace SequentCalculus

namespace Text

variable {c : Char} {cs : List Char}

/-! ### Cutting at a mark -/

theorem bne_of_notMem (h : c ∉ cs) : ∀ d ∈ cs, (d != c) = true := by
  intro d hd
  rw [bne_iff_ne]
  rintro rfl
  exact h hd

theorem takeWhile_append_mark (h : c ∉ cs) (ds : List Char) :
    (cs ++ c :: ds).takeWhile (· != c) = cs := by
  rw [List.takeWhile_append_of_pos (bne_of_notMem h), List.takeWhile_cons_of_neg (by simp),
    List.append_nil]

theorem dropWhile_append_mark (h : c ∉ cs) (ds : List Char) :
    (cs ++ c :: ds).dropWhile (· != c) = c :: ds := by
  rw [List.dropWhile_append_of_pos (bne_of_notMem h), List.dropWhile_cons_of_neg (by simp)]

/-! ### Trimming -/

theorem trimEnd_cons (c : Char) (cs : List Char) :
    trimEnd (c :: cs) = if isBlank c = true ∧ trimEnd cs = [] then [] else c :: trimEnd cs := by
  unfold trimEnd
  rw [List.reverse_cons, List.dropWhile_append]
  by_cases hnil : cs.reverse.dropWhile isBlank = []
  · cases hc : isBlank c <;> simp [hnil, hc]
  · simp [hnil]

theorem trimEnd_trimEnd (cs : List Char) : trimEnd (trimEnd cs) = trimEnd cs := by
  induction cs with
  | nil => rfl
  | cons c cs ih =>
    rw [trimEnd_cons]
    split
    · rfl
    · rename_i hkept
      rw [trimEnd_cons, ih, if_neg hkept]

theorem trim_cons_of_blank (h : isBlank c = true) : trim (c :: cs) = trim cs := by
  rw [trim, trimStart, List.dropWhile_cons, if_pos h]
  rfl

theorem trim_cons_of_not_blank (h : isBlank c = false) : trim (c :: cs) = c :: trimEnd cs := by
  rw [trim, trimStart, List.dropWhile_cons, if_neg (by simp [h]), trimEnd_cons,
    if_neg (by simp [h])]

/-- It makes no difference if the blanks at the end are taken off beforehand. -/
theorem trim_trimEnd (cs : List Char) : trim (trimEnd cs) = trim cs := by
  induction cs with
  | nil => rfl
  | cons c cs ih =>
    rw [trimEnd_cons]
    cases hc : isBlank c with
    | true =>
      rw [trim_cons_of_blank hc, ← ih]
      split
      · rename_i hall
        rw [hall.2]
      · exact trim_cons_of_blank hc
    | false =>
      rw [if_neg (by simp), trim_cons_of_not_blank hc, trim_cons_of_not_blank hc, trimEnd_trimEnd]

theorem trimEnd_append_of_not_blank {word : List Char} (hword : word.all (!isBlank ·) = true)
    (rest : List Char) : trimEnd (word ++ rest) = word ++ trimEnd rest := by
  induction word with
  | nil => rfl
  | cons d word ih =>
    rw [List.all_cons, Bool.and_eq_true] at hword
    obtain ⟨hd, hword⟩ := hword
    rw [List.cons_append, trimEnd_cons, ih hword, if_neg, List.cons_append]
    rintro ⟨hblank, -⟩
    simp [hblank] at hd

/-- **The argument of a command** is what follows the first word and a blank, without the blanks
around it. -/
theorem splitWord_trim_append {d : Char} {word : List Char}
    (hword : (d :: word).all (!isBlank ·) = true) (hc : isBlank c = true) :
    splitWord (trim (d :: word ++ c :: cs)) = (d :: word, trim cs) := by
  have hd : isBlank d = false := by simpa using List.all_eq_true.1 hword d (by simp)
  have htrim : trim (d :: word ++ c :: cs) = d :: word ++ trimEnd (c :: cs) := by
    rw [← trimEnd_append_of_not_blank hword, List.cons_append, trim_cons_of_not_blank hd,
      trimEnd_cons, if_neg (by simp [hd])]
  -- what is left after the word is empty or begins with a blank
  have hstop : (trimEnd (c :: cs)).takeWhile (!isBlank ·) = [] ∧
      (trimEnd (c :: cs)).dropWhile (!isBlank ·) = trimEnd (c :: cs) := by
    rw [trimEnd_cons]
    split
    · exact ⟨rfl, rfl⟩
    · simp [hc]
  have hpass := List.all_eq_true.1 hword
  rw [splitWord, htrim, List.takeWhile_append_of_pos hpass, List.dropWhile_append_of_pos hpass,
    hstop.1, hstop.2, List.append_nil, trim_trimEnd, trim_cons_of_blank hc]

theorem toNat_of_isBlank (h : isBlank c = true) : c.toNat ≤ 0x20 ∨ 0x85 ≤ c.toNat := by
  simp only [isBlank, Bool.or_eq_true, Bool.and_eq_true, decide_eq_true_eq, beq_iff_eq,
    UInt32.le_iff_toNat_le, ← UInt32.toNat_inj, UInt32.reduceToNat] at h
  unfold Char.toNat
  omega

end Text

/-! ### Scanning -/

namespace Token

open Text (isBlank)

variable {c : Char} {cs : List Char} {ts : List Token}

theorem toNat_of_isWordChar (h : isWordChar c = true) : 0x30 ≤ c.toNat ∧ c.toNat ≤ 0x7a := by
  delta isWordChar Char.isAlphanum Char.isAlpha Char.isUpper Char.isLower Char.isDigit at h
  simp only [Bool.or_eq_true, Bool.and_eq_true, decide_eq_true_eq, beq_iff_eq, ge_iff_le,
    UInt32.le_iff_toNat_le, Char.reduceVal, UInt32.reduceToNat] at h
  unfold Char.toNat
  rcases h with h | rfl
  · omega
  · decide

theorem isWordChar_of_isBlank (h : isBlank c = true) : isWordChar c = false := by
  have hblank := Text.toNat_of_isBlank h
  refine Bool.eq_false_iff.2 fun hword => ?_
  have hrange := toNat_of_isWordChar hword
  omega

theorem isWordStart_of_isBlank (h : isBlank c = true) : isWordStart c = false := by
  have hword := isWordChar_of_isBlank h
  simp only [isWordChar, isWordStart, Char.isAlphanum, Bool.or_eq_false_iff] at hword ⊢
  exact ⟨hword.1.1, hword.2⟩

theorem symbol?_of_isBlank (h : isBlank c = true) (cs : List Char) : symbol? c cs = none := by
  unfold symbol?
  split <;> first | rfl | exact absurd h (by decide)

theorem exists_cons_of_append_cons {x : Char} {ds tail : List Char} (hne : c ≠ x)
    (h : cs ++ c :: ds = x :: tail) : ∃ rest, cs = x :: rest ∧ rest ++ c :: ds = tail := by
  cases cs with
  | nil => exact absurd (List.cons.inj h).1 hne
  | cons d rest =>
    obtain ⟨rfl, htail⟩ := List.cons.inj h
    exact ⟨rest, rfl, htail⟩

/-- A blank does not go on with a symbol. -/
theorem symbol?_append_blank (h : isBlank c = true) (d : Char) (cs ds : List Char) :
    symbol? d (cs ++ c :: ds) = symbol? d cs := by
  have hgt : c ≠ '>' := by
    rintro rfl
    exact absurd h (by decide)
  have heq : c ≠ '=' := by
    rintro rfl
    exact absurd h (by decide)
  fun_cases symbol? d cs with
  | case10 d cs hnot hand hor hcomma hlparen hrparen himplies hturnstile hiff =>
    unfold symbol?
    split
    -- the symbols of several characters, which would have to be there before
    case h_7 tail htail =>
      obtain ⟨rest, hcs, -⟩ := exists_cons_of_append_cons hgt htail
      exact (himplies rest rfl hcs).elim
    case h_8 tail htail =>
      obtain ⟨rest, hcs, -⟩ := exists_cons_of_append_cons hgt htail
      exact (hturnstile rest rfl hcs).elim
    case h_9 tail htail =>
      obtain ⟨rest, rfl, hrest⟩ := exists_cons_of_append_cons heq htail
      obtain ⟨rest', rfl, -⟩ := exists_cons_of_append_cons hgt hrest
      exact (hiff rest' rfl rfl).elim
    all_goals first | rfl | contradiction
  | _ => rfl

theorem le_length_of_symbol? {d : Char} {token : Token} {extra : Nat}
    (h : symbol? d cs = some (token, extra)) : extra ≤ cs.length := by
  unfold symbol? at h
  split at h <;> cases h <;> simp

/-- A text that can be scanned begins with no blanks but those that separate tokens. -/
theorem scan_of_cons_blank (hc : isBlank c = true) (h : scan (c :: cs) = some ts) :
    scan cs = some ts := by
  rw [scan, isWordStart_of_isBlank hc, symbol?_of_isBlank hc] at h
  by_cases hspace : isSpace c = true
  · rwa [if_pos hspace] at h
  · rw [if_neg hspace] at h
    cases h

/-- **A text can be cut before a blank**: the tokens of what comes before it are followed by those
of the rest. -/
theorem scan_append_blank (hc : isBlank c = true) (cs ds : List Char) :
    scan (cs ++ c :: ds) = (scan cs).bind fun ts => (scan (c :: ds)).map (ts ++ ·) := by
  have hword := isWordChar_of_isBlank hc
  -- a word ends before the blank
  have htake : ∀ es : List Char,
      (es ++ c :: ds).takeWhile isWordChar = es.takeWhile isWordChar := by
    intro es
    induction es with
    | nil => simp [hword]
    | cons e es ih => simp only [List.cons_append, List.takeWhile_cons, ih]
  have hdrop : ∀ es : List Char,
      (es ++ c :: ds).dropWhile isWordChar = es.dropWhile isWordChar ++ c :: ds := by
    intro es
    induction es with
    | nil => simp [hword]
    | cons e es ih =>
      simp only [List.cons_append, List.dropWhile_cons, ih]
      split <;> rfl
  -- a token in front of both sides
  have hcons : ∀ (token : Token) (front rest : Option (List Token)),
      (front.bind fun ts => rest.map (ts ++ ·)).map (token :: ·) =
        (front.map (token :: ·)).bind fun ts => rest.map (ts ++ ·) := by
    intro token front rest
    cases front <;> cases rest <;> rfl
  fun_induction scan cs with
  | case1 => simp
  | case2 d cs hspace ih => rw [List.cons_append, scan, if_pos hspace, ih]
  | case3 d cs hspace hstart ih =>
    rw [List.cons_append, scan, if_neg hspace, if_pos hstart, htake, hdrop, ih, hcons]
  | case4 d cs hspace hstart token extra hsymbol ih =>
    rw [List.cons_append, scan, if_neg hspace, if_neg hstart, symbol?_append_blank hc, hsymbol]
    simp only [List.drop_append_of_le_length (le_length_of_symbol? hsymbol), ih, hcons]
  | case5 d cs hspace hstart hsymbol =>
    rw [List.cons_append, scan, if_neg hspace, if_neg hstart, symbol?_append_blank hc, hsymbol]
    rfl

/-- A text that can be scanned ends with no blanks but those that separate tokens. -/
theorem scan_of_append_blank (hc : isBlank c = true) (h : scan (cs ++ [c]) = some ts) :
    scan cs = some ts := by
  rw [scan_append_blank hc] at h
  obtain ⟨us, hus, hrest⟩ := Option.bind_eq_some_iff.1 h
  obtain ⟨vs, hvs, rfl⟩ := Option.map_eq_some_iff.1 hrest
  have hnil := scan_of_cons_blank hc hvs
  rw [scan, Option.some_inj] at hnil
  rw [← hnil, List.append_nil, hus]

theorem scan_trimStart (h : scan cs = some ts) : scan (Text.trimStart cs) = some ts := by
  unfold Text.trimStart
  induction cs with
  | nil => exact h
  | cons c cs ih =>
    rw [List.dropWhile_cons]
    split
    · rename_i hc
      exact ih (scan_of_cons_blank hc h)
    · exact h

theorem scan_trimEnd (h : scan cs = some ts) : scan (Text.trimEnd cs) = some ts := by
  -- by induction from the end
  have hreverse : ∀ rs : List Char, scan rs.reverse = some ts →
      scan (rs.dropWhile isBlank).reverse = some ts := by
    intro rs hrs
    induction rs with
    | nil => exact hrs
    | cons c rs ih =>
      rw [List.dropWhile_cons]
      split
      · rename_i hc
        rw [List.reverse_cons] at hrs
        exact ih (scan_of_append_blank hc hrs)
      · exact hrs
  refine hreverse cs.reverse ?_
  rwa [List.reverse_reverse]

end Token

/-! ### Reading -/

theorem SequentExpr.read_eq_ok_iff {text : String} {e : SequentExpr} :
    read text = .ok e ↔ ∃ ts, Token.scan text.toList = some ts ∧ ofTokens? ts = some e := by
  rw [← Option.bind_eq_some_iff, read]
  cases (Token.scan text.toList).bind ofTokens? <;> simp

theorem SequentExpr.read_eq_error {text : String} {error : InputError}
    (h : read text = .error error) : error = .malformed text := by
  unfold read at h
  split at h
  · cases h
  · exact (Except.error.inj h).symm

/-- **Trimming does not change what can be read.** -/
theorem SequentExpr.read_trim {text : String} {e : SequentExpr} (h : read text = .ok e) :
    read (String.ofList (Text.trim text.toList)) = .ok e := by
  obtain ⟨ts, hscan, he⟩ := read_eq_ok_iff.1 h
  refine read_eq_ok_iff.2 ⟨ts, ?_, he⟩
  rw [String.toList_ofList]
  exact Token.scan_trimEnd (Token.scan_trimStart hscan)

end SequentCalculus
