import SequentCalculus.Address
import SequentCalculus.Proofs.Reading.Blank
import Mathlib.Data.Nat.Digits.Defs

/-!
# Addresses as text

A number is shown by its decimal digits, and they read as that number (`Text.decimal?_toString`).
They end where something else begins, so that a number in front of a text can be told from what
follows (`Text.toString_append_cons_inj`).  Other numerals read as a number too: they may have a `+`
in front and any number of zeros after it.  `Text.Numeral` lists them all
(`Text.decimal?_eq_some_iff`).

An address is two numerals with a dot between them.  Neither of them has a dot or a blank of its
own, so it does not matter where the text is cut, and two numerals read as the address made of their
values, as far as there is one (`Address.ofChars?_eq_some_iff`).
-/

namespace SequentCalculus

namespace Text

variable {c d : Char} {cs ds : List Char} {m n : Nat}

theorem isDigit_of_mem_toString (h : c ∈ (toString n).toList) : c.isDigit = true := by
  rw [Nat.toString_eq_repr, Nat.toList_repr] at h
  exact Nat.isDigit_of_mem_toDigits (by decide) (by decide) h

/-- A number has a first digit. -/
theorem exists_toList_toString (n : Nat) :
    ∃ c cs, (toString n).toList = c :: cs ∧ c.isDigit = true := by
  cases hdigits : (toString n).toList with
  | nil =>
    rw [Nat.toString_eq_repr, Nat.toList_repr] at hdigits
    exact absurd hdigits Nat.toDigits_ne_nil
  | cons c cs =>
    have hmem : c ∈ (toString n).toList := by
      rw [hdigits]
      exact List.mem_cons_self
    exact ⟨c, cs, rfl, isDigit_of_mem_toString hmem⟩

theorem digitsValue_of_isDigit (h : ∀ c ∈ cs, c.isDigit = true) (value : Nat) :
    digitsValue value cs = some (Nat.ofDigitChars 10 cs value) := by
  induction cs generalizing value with
  | nil => rfl
  | cons c cs ih =>
    rw [List.forall_mem_cons] at h
    rw [digitsValue, if_pos h.1, ih h.2]
    rfl

/-- **A number reads as itself.** -/
theorem decimal?_toString (n : Nat) : decimal? (toString n).toList = some n := by
  obtain ⟨c, cs, hdigits, hc⟩ := exists_toList_toString n
  have hall : ∀ d ∈ c :: cs, d.isDigit = true := fun d hd =>
    isDigit_of_mem_toString (n := n) (hdigits ▸ hd)
  have hvalue : Nat.ofDigitChars 10 (c :: cs) 0 = n := by
    rw [← hdigits, Nat.toString_eq_repr, Nat.toList_repr,
      Nat.ofDigitChars_toDigits (by decide) (by decide)]
  have hplus : c ≠ '+' := by
    rintro rfl
    exact absurd hc (by decide)
  rw [hdigits]
  unfold decimal?
  split
  · rename_i hcons
    exact absurd (List.cons.inj hcons).1 hplus
  · rw [digits?, digitsValue_of_isDigit hall, hvalue]

/-- The number that ASCII digits spell out: each digit counts ten times as much as the next one, and
the last digit counts units. -/
def positional (ds : List Char) : Nat :=
  Nat.ofDigits 10 (ds.map fun d => d.toNat - '0'.toNat).reverse

/-- The numerals, with their values: one ASCII digit or more, after at most one `+`. -/
inductive Numeral : List Char → Nat → Prop
  | plain {ds : List Char} (hne : ds ≠ []) (hdigits : ∀ d ∈ ds, d.isDigit = true) :
      Numeral ds (positional ds)
  | plus {ds : List Char} (hne : ds ≠ []) (hdigits : ∀ d ∈ ds, d.isDigit = true) :
      Numeral ('+' :: ds) (positional ds)

theorem ofDigitChars_eq_positional (ds : List Char) : Nat.ofDigitChars 10 ds 0 = positional ds := by
  induction ds with
  | nil => rfl
  | cons d ds ih =>
    rw [Nat.ofDigitChars_cons, Nat.ofDigitChars_eq_ofDigitChars_zero, ih, positional, positional,
      List.map_cons, Nat.ofDigits_reverse_cons, List.length_map, Nat.mul_zero, Nat.zero_add,
      Nat.add_comm]

theorem isDigit_of_digitsValue {value : Nat} (h : digitsValue value cs = some n) :
    ∀ c ∈ cs, c.isDigit = true := by
  induction cs generalizing value with
  | nil => exact fun _ hc => absurd hc List.not_mem_nil
  | cons c cs ih =>
    rw [digitsValue] at h
    split at h
    · rename_i hc
      exact List.forall_mem_cons.2 ⟨hc, ih h⟩
    · cases h

theorem digits?_eq_some_iff :
    digits? cs = some n ↔ cs ≠ [] ∧ (∀ c ∈ cs, c.isDigit = true) ∧ positional cs = n := by
  cases cs with
  | nil => simp [digits?]
  | cons c cs =>
    rw [digits?, ← ofDigitChars_eq_positional]
    constructor
    · intro h
      have hdigits := isDigit_of_digitsValue h
      rw [digitsValue_of_isDigit hdigits] at h
      exact ⟨List.cons_ne_nil c cs, hdigits, Option.some.inj h⟩
    · rintro ⟨-, hdigits, rfl⟩
      exact digitsValue_of_isDigit hdigits 0

/-- **The numerals are what reads as a number.** -/
theorem decimal?_eq_some_iff : decimal? cs = some n ↔ Numeral cs n := by
  constructor
  · intro h
    unfold decimal? at h
    split at h <;> obtain ⟨hne, hdigits, rfl⟩ := digits?_eq_some_iff.1 h
    · exact .plus hne hdigits
    · exact .plain hne hdigits
  · intro h
    cases h with
    | plus hne hdigits => exact digits?_eq_some_iff.2 ⟨hne, hdigits, rfl⟩
    | plain hne hdigits =>
      unfold decimal?
      split
      · exact absurd (hdigits '+' List.mem_cons_self) (by decide)
      · exact digits?_eq_some_iff.2 ⟨hne, hdigits, rfl⟩

theorem numeral_toString (n : Nat) : Numeral (toString n).toList n :=
  decimal?_eq_some_iff.1 (decimal?_toString n)

/-- The characters of a numeral are digits, but for the `+`. -/
theorem Numeral.isDigit_or_plus (h : Numeral cs n) (hc : c ∈ cs) : c.isDigit = true ∨ c = '+' := by
  cases h with
  | plain hne hdigits => exact .inl (hdigits c hc)
  | plus hne hdigits =>
    rcases List.mem_cons.1 hc with rfl | hc
    · exact .inr rfl
    · exact .inl (hdigits c hc)

theorem toString_inj (h : (toString m).toList = (toString n).toList) : m = n := by
  have hread := congrArg decimal? h
  rw [decimal?_toString, decimal?_toString] at hread
  exact Option.some.inj hread

/-- Where a number ends can be told from what follows it. -/
theorem toString_append_cons_inj (hc : c.isDigit = false) (hd : d.isDigit = false)
    (h : (toString m).toList ++ c :: cs = (toString n).toList ++ d :: ds) :
    m = n ∧ c = d ∧ cs = ds := by
  have htake : ∀ k : Nat, ∀ e : Char, ∀ es : List Char, e.isDigit = false →
      ((toString k).toList ++ e :: es).takeWhile Char.isDigit = (toString k).toList := by
    intro k e es he
    rw [List.takeWhile_append_of_pos fun x hx => isDigit_of_mem_toString hx,
      List.takeWhile_cons_of_neg (by simp [he]), List.append_nil]
  have hnumber : (toString m).toList = (toString n).toList := by
    rw [← htake m c cs hc, h, htake n d ds hd]
  rw [hnumber] at h
  obtain ⟨hchar, hrest⟩ := List.cons.inj (List.append_cancel_left h)
  exact ⟨toString_inj hnumber, hchar, hrest⟩

theorem not_isBlank_of_isDigit (h : c.isDigit = true) : isBlank c = false := by
  cases hblank : isBlank c with
  | false => rfl
  | true =>
    have hchar := toNat_of_isBlank hblank
    delta Char.isDigit at h
    simp only [Bool.and_eq_true, decide_eq_true_eq, ge_iff_le, UInt32.le_iff_toNat_le,
      Char.reduceVal, UInt32.reduceToNat] at h
    unfold Char.toNat at hchar
    omega

theorem trim_eq_self (h : ∀ c ∈ cs, isBlank c = false) : trim cs = cs := by
  cases cs with
  | nil => rfl
  | cons c cs =>
    rw [List.forall_mem_cons] at h
    have hall : cs.all (!isBlank ·) = true := by simpa using h.2
    have hend : trimEnd cs = cs := by
      simpa [trimEnd] using trimEnd_append_of_not_blank hall []
    rw [trim_cons_of_not_blank h.1, hend]

end Text

namespace Address

variable {goal rule : Nat} {a : Address}

theorem toList_numbers (goal rule : Nat) : s!"{goal}.{rule}".toList =
    (toString goal).toList ++ '.' :: (toString rule).toList := by
  show (toString goal ++ "." ++ toString rule).toList = _
  rw [String.toList_append, String.toList_append, List.append_assoc]
  rfl

/-- There are no blanks to be trimmed off two numbers with a dot between them. -/
theorem trim_numbers (goal rule : Nat) :
    Text.trim s!"{goal}.{rule}".toList = s!"{goal}.{rule}".toList := by
  refine Text.trim_eq_self fun c hc => ?_
  rw [toList_numbers, List.mem_append, List.mem_cons] at hc
  rcases hc with hc | rfl | hc
  · exact Text.not_isBlank_of_isDigit (Text.isDigit_of_mem_toString hc)
  · decide
  · exact Text.not_isBlank_of_isDigit (Text.isDigit_of_mem_toString hc)

/-- Two numerals with a dot between them are cut at that dot. -/
theorem ofChars?_of_numerals {goalText ruleText : List Char} (hgoal : Text.Numeral goalText goal)
    (hrule : Text.Numeral ruleText rule) :
    ofChars? (goalText ++ '.' :: ruleText) = ofNats? goal rule := by
  have hdot : '.' ∉ goalText := fun hmem => absurd (hgoal.isDigit_or_plus hmem) (by decide)
  unfold ofChars?
  rw [Text.dropWhile_append_mark hdot, Text.takeWhile_append_mark hdot]
  simp only [Text.decimal?_eq_some_iff.2 hgoal, Text.decimal?_eq_some_iff.2 hrule]

theorem ofChars?_numbers (goal rule : Nat) :
    ofChars? s!"{goal}.{rule}".toList = ofNats? goal rule := by
  rw [toList_numbers]
  exact ofChars?_of_numerals (Text.numeral_toString goal) (Text.numeral_toString rule)

theorem ofNats?_eq_some_iff : ofNats? goal rule = some a ↔ a.goal.index = goal ∧ a.rule = rule := by
  unfold ofNats?
  constructor
  · intro h
    split at h
    · split at h
      · cases h
        exact ⟨rfl, rfl⟩
      · cases h
    · cases h
  · rintro ⟨rfl, rfl⟩
    rw [dif_pos a.goal.index_lt, dif_pos a.rule_lt]

/-- **Two numbers read as the address made of them**, as far as there is one. -/
theorem read_numbers_eq_ok_iff :
    read s!"{goal}.{rule}" = .ok a ↔ a.goal.index = goal ∧ a.rule = rule := by
  unfold read
  rw [trim_numbers, ofChars?_numbers, ← ofNats?_eq_some_iff]
  cases ofNats? goal rule <;> simp

/-- **The texts of addresses**: two numerals with a dot between them, whose values fit. -/
theorem ofChars?_eq_some_iff {cs : List Char} : ofChars? cs = some a ↔
    ∃ goalText ruleText, cs = goalText ++ '.' :: ruleText ∧
      Text.Numeral goalText a.goal.index ∧ Text.Numeral ruleText a.rule := by
  constructor
  · intro h
    unfold ofChars? at h
    split at h
    · cases h
    · rename_i dot ruleText hdrop
      split at h
      · rename_i goal rule hgoal hrule
        obtain ⟨rfl, rfl⟩ := ofNats?_eq_some_iff.1 h
        obtain rfl : dot = '.' := by
          have hstop := List.head?_dropWhile_not (· != '.') cs
          rw [hdrop] at hstop
          simpa using hstop
        refine ⟨cs.takeWhile (· != '.'), ruleText, ?_, Text.decimal?_eq_some_iff.1 hgoal,
          Text.decimal?_eq_some_iff.1 hrule⟩
        rw [← hdrop, List.takeWhile_append_dropWhile]
      · cases h
  · rintro ⟨goalText, ruleText, rfl, hgoal, hrule⟩
    rw [ofChars?_of_numerals hgoal hrule]
    exact ofNats?_eq_some_iff.2 ⟨rfl, rfl⟩

theorem read_eq_ok_iff {text : String} :
    read text = .ok a ↔ ofChars? (Text.trim text.toList) = some a := by
  unfold read
  cases ofChars? (Text.trim text.toList) <;> simp

theorem read_eq_error {text : String} {error : InputError} (h : read text = .error error) :
    error = .malformedAddress text := by
  unfold read at h
  split at h
  · cases h
  · exact (Except.error.inj h).symm

/-- The text is an address of these numbers: between the blanks at its ends, two numerals with a dot
between them. -/
def Writes (text : String) (goal rule : Nat) : Prop :=
  ∃ goalText ruleText, Text.trim text.toList = goalText ++ '.' :: ruleText ∧
    Text.Numeral goalText goal ∧ Text.Numeral ruleText rule

theorem exists_read_eq_ok_iff {text : String} :
    (∃ a, read text = .ok a ∧ a.goal.index = goal ∧ a.rule = rule) ↔
      Writes text goal rule ∧ goal < 2 ^ 32 ∧ rule < 2 ^ 64 := by
  constructor
  · rintro ⟨a, ha, rfl, rfl⟩
    exact ⟨ofChars?_eq_some_iff.1 (read_eq_ok_iff.1 ha), a.goal.index_lt, a.rule_lt⟩
  · rintro ⟨hwrites, hgoal, hrule⟩
    let a : Address := ⟨⟨goal, hgoal⟩, rule, hrule⟩
    exact ⟨a, read_eq_ok_iff.2 (ofChars?_eq_some_iff.2 hwrites), rfl, rfl⟩

theorem read_text (a : Address) : read a.text = .ok a :=
  read_numbers_eq_ok_iff.2 ⟨rfl, rfl⟩

/-- **Addresses are read exactly.**  A text is read as an address if and only if it is, up to blanks
at its ends, a numeral below 2³², a dot and a numeral below 2⁶⁴, and the address has their values.
Every other text is refused, and named as a whole.  So an address is read back from its own text,
and showing what was read and reading it again changes nothing. -/
theorem addresses_are_read_exactly (text : String) :
    (∀ goal rule, (∃ a, read text = .ok a ∧ a.goal.index = goal ∧ a.rule = rule) ↔
      Writes text goal rule ∧ goal < 2 ^ 32 ∧ rule < 2 ^ 64) ∧
    (∀ error, read text = .error error ↔ error = .malformedAddress text ∧
      ¬∃ goal rule, Writes text goal rule ∧ goal < 2 ^ 32 ∧ rule < 2 ^ 64) ∧
    (∀ a : Address, read a.text = .ok a) ∧
    ∀ a, read text = .ok a → read a.text = read text := by
  refine ⟨fun goal rule => exists_read_eq_ok_iff, fun error => ?_, read_text, fun a ha => ?_⟩
  · simp only [← exists_read_eq_ok_iff]
    constructor
    · intro h
      refine ⟨read_eq_error h, ?_⟩
      rintro ⟨-, -, a, ha, -⟩
      rw [h] at ha
      cases ha
    · rintro ⟨rfl, hnone⟩
      cases hread : read text with
      | error error => rw [read_eq_error hread]
      | ok a => exact absurd ⟨_, _, a, hread, rfl, rfl⟩ hnone
  · rw [ha, read_text]

/-- The largest address, with a sign, zeros and blanks that are not shown again; one more for the
goal is too much. -/
theorem addresses_are_read_exactly_at_limits :
    let text := " +0004294967295.18446744073709551615\n"
    (∃ a, read text = .ok a ∧ a.goal.index = 2 ^ 32 - 1 ∧ a.rule = 2 ^ 64 - 1 ∧
      a.text = "4294967295.18446744073709551615" ∧ read a.text = read text) ∧
    read "4294967296.0" = .error (.malformedAddress "4294967296.0") := by
  intro text
  obtain ⟨hread, -, -, hagain⟩ := addresses_are_read_exactly text
  have hwrites : Writes text (2 ^ 32 - 1) (2 ^ 64 - 1) :=
    ⟨"+0004294967295".toList, "18446744073709551615".toList, by decide,
      Text.decimal?_eq_some_iff.1 (by decide), Text.decimal?_eq_some_iff.1 (by decide)⟩
  obtain ⟨a, ha, hgoal, hrule⟩ := (hread _ _).2 ⟨hwrites, by decide, by decide⟩
  refine ⟨⟨a, ha, hgoal, hrule, ?_, hagain a ha⟩, by decide⟩
  rw [Address.text, hgoal, hrule]
  decide

end Address

end SequentCalculus
