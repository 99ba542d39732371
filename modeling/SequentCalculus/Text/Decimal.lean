/-!
# Unsigned decimal numbers

Goal numbers, rule positions and step limits are written with ASCII digits, at least one, after at
most one `+`.
-/

namespace SequentCalculus.Text

/-- The value of a run of ASCII digits, read from the left after `value`; `none` if some character
is no digit. -/
def digitsValue (value : Nat) : List Char → Option Nat
  | [] => some value
  | c :: cs => if c.isDigit then digitsValue (10 * value + (c.toNat - '0'.toNat)) cs else none

/-- One digit or more, as a number. -/
def digits? : List Char → Option Nat
  | [] => none
  | c :: cs => digitsValue 0 (c :: cs)

/-- An unsigned decimal number, with or without a leading `+`. -/
def decimal? : List Char → Option Nat
  | '+' :: cs => digits? cs
  | cs => digits? cs

end SequentCalculus.Text
