/-!
# Lines

A line ends at a line feed, and a carriage return straight before that line feed belongs to the
line's end.  A text that stops without a line feed has one last line more, which keeps a carriage
return it may end in.  The same rule cuts characters (the problem reader) and bytes (the session,
whose input is decoded line by line), so it is stated for any alphabet with the two marks given.
-/

namespace SequentCalculus.Text

variable {α : Type} [DecidableEq α]

/-- A line without the one `ret` that may stand at its end. -/
def dropReturn (ret : α) (line : List α) : List α :=
  if line.getLast? = some ret then line.dropLast else line

/-- The lines of a text whose current line has already begun with the reverse of `begun`. -/
def linesAfter (feed ret : α) (begun : List α) : List α → List (List α)
  | [] => if begun.isEmpty then [] else [begun.reverse]
  | c :: cs =>
    if c = feed then dropReturn ret begun.reverse :: linesAfter feed ret [] cs
    else linesAfter feed ret (c :: begun) cs

/-- The lines of a text, each without the marks that end it. -/
def lines (feed ret : α) (text : List α) : List (List α) :=
  linesAfter feed ret [] text

/-- The lines of a text of characters. -/
def textLines (text : List Char) : List (List Char) :=
  lines '\n' '\r' text

/-- The lines of a text still in bytes. -/
def byteLines (bytes : List UInt8) : List (List UInt8) :=
  lines 10 13 bytes

end SequentCalculus.Text
