/-!
# Input errors

What can be wrong with a text, a file or a stream that a user hands in.  Calls that break the
contract of an operation are `Fault`s instead.
-/

namespace SequentCalculus

/-- The ways in which input can be refused. -/
inductive InputError where
  /-- The text is no formula, or no sequent. -/
  | malformed (text : String)
  /-- The text is no address of a rule. -/
  | malformedAddress (text : String)
  /-- The bytes are no UTF-8. -/
  | notUtf8
  /-- There is no such file. -/
  | noFile
  deriving DecidableEq, Repr

namespace InputError

/-- The wording of an input error. -/
def message : InputError → String
  | .malformed text => s!"invalid syntax: {text}"
  | .malformedAddress text => s!"invalid address: {text} (expected <goal>.<rule>)"
  | .notUtf8 => "stream did not contain valid UTF-8"
  | .noFile => "No such file or directory (os error 2)"

/-- Whether the input could not even be read, as opposed to read and not understood. -/
def isUnreadable : InputError → Bool
  | .notUtf8 => true
  | .noFile => true
  | .malformed _ => false
  | .malformedAddress _ => false

end InputError

end SequentCalculus
