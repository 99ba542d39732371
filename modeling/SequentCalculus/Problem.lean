import SequentCalculus.Sequent
import SequentCalculus.Text.Blank
import SequentCalculus.Text.Lines

/-!
# Problem texts

A problem is a sequent that may be spread over several lines, with comment lines between them.  A
comment line is one whose first character that is no blank is `%`.
-/

namespace SequentCalculus.Problem

/-- Whether a line is a comment. -/
def isComment (line : List Char) : Bool :=
  (Text.trimStart line).head? == some '%'

/-- The lines of a problem that are no comments, joined by line feeds. -/
def body (text : String) : String :=
  let kept := (Text.textLines text.toList).filter (!isComment ·)
  String.ofList (List.intercalate ['\n'] kept)

end SequentCalculus.Problem

namespace SequentCalculus

/-- Reads a problem and builds its sequent.  An error shows the text without its comments. -/
def Store.readProblem (s : Store) (text : String) : Except InputError (Sequent × Store) :=
  s.readSequent (Problem.body text)

end SequentCalculus
