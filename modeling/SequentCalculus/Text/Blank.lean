/-!
# Blank characters

The session reads its command lines, and the problem reader its comment lines, up to white space
in the wide sense: the twenty-five characters with the Unicode property `White_Space`.  The
grammar of formulas knows only four blanks of its own (`Token.isSpace`), so the two classes are
kept apart.

Text is handled as `List Char`; a `String` is only met where text enters or leaves.
-/

namespace SequentCalculus.Text

/-- The characters with the Unicode property `White_Space`. -/
def isBlank (c : Char) : Bool :=
  (0x09 ≤ c.val && c.val ≤ 0x0D) || c.val == 0x20 || c.val == 0x85 || c.val == 0xA0
    || c.val == 0x1680 || (0x2000 ≤ c.val && c.val ≤ 0x200A) || c.val == 0x2028
    || c.val == 0x2029 || c.val == 0x202F || c.val == 0x205F || c.val == 0x3000

/-- The text without its leading blanks. -/
def trimStart (cs : List Char) : List Char :=
  cs.dropWhile isBlank

/-- The text without its trailing blanks. -/
def trimEnd (cs : List Char) : List Char :=
  (cs.reverse.dropWhile isBlank).reverse

/-- The text without the blanks at both of its ends. -/
def trim (cs : List Char) : List Char :=
  trimEnd (trimStart cs)

/-- The first word of a text, and what follows it with the blanks at both ends taken off. -/
def splitWord (cs : List Char) : List Char × List Char :=
  (cs.takeWhile (!isBlank ·), trim (cs.dropWhile (!isBlank ·)))

end SequentCalculus.Text
