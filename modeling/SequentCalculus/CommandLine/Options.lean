import SequentCalculus.Policy
import SequentCalculus.Text.Decimal

/-!
# Options of the command line

An option is written `--name=value` or `--name value`, a flag `--name`; `-v` may be repeated and
joined.  What is left over is the path of the problem.  The value of `--name=value` begins after
all the `=` that follow the name, so it cannot itself begin with one.
-/

namespace SequentCalculus.CommandLine

/-- How much of a proof or a model is printed. -/
inductive Output where
  /-- Everything. -/
  | proof
  /-- Only that there is one. -/
  | silent
  deriving DecidableEq, Repr

/-- What the command line asks for. -/
structure Options where
  /-- Where the problem is; the standard input if there is neither a path nor a sequent. -/
  path : Option String := none
  /-- The problem itself. -/
  sequent : Option String := none
  interactive : Bool := false
  output : Output := .proof
  /-- The limit on the steps of the search. -/
  steps : Option Nat := none
  policy : Policy := {}
  statistics : Bool := false
  /-- The number of `-v`. -/
  verbosity : Nat := 0
  deriving DecidableEq, Repr

/-- Why a command line was not understood. -/
inductive UsageError where
  | unknownOption (name : String)
  | missingValue (name : String)
  | badValue (name value : String)
  | unexpectedArgument (argument : String)
  | conflict
  deriving DecidableEq, Repr

/-- The wording of a usage error. -/
def UsageError.message : UsageError → String
  | .unknownOption name => s!"unknown option {name}"
  | .missingValue name => s!"option --{name} needs a value"
  | .badValue name value => s!"{value}: not a valid value of --{name}"
  | .unexpectedArgument argument => s!"unexpected argument {argument}"
  | .conflict => "a path and --sequent cannot be used together"

namespace Options

/-- The output called `name`. -/
def outputNamed? : String → Option Output
  | "proof" => some .proof
  | "silent" => some .silent
  | _ => none

/-- Whether `name` is a flag, which takes no value. -/
def isFlag (name : String) : Bool :=
  name == "interactive" || name == "statistics" || name == "verbose"

/-- The options with a flag set. -/
def withFlag (o : Options) (name : String) : Except UsageError Options :=
  match name with
  | "interactive" => .ok { o with interactive := true }
  | "statistics" => .ok { o with statistics := true }
  | "verbose" => .ok { o with verbosity := o.verbosity + 1 }
  | _ => .error (.unknownOption s!"--{name}")

/-- The options with an option set. -/
def withValue (o : Options) (name value : String) : Except UsageError Options :=
  match name with
  | "sequent" => .ok { o with sequent := some value }
  | "output" =>
    match outputNamed? value with
    | some output => .ok { o with output := output }
    | none => .error (.badValue name value)
  | "steps" =>
    match (Text.decimal? value.toList).filter (· < UInt64.size) with
    | some steps => .ok { o with steps := some steps }
    | none => .error (.badValue name value)
  | "negation" =>
    match Negation.ofName value with
    | .ok negation => .ok { o with policy := { o.policy with negation := negation } }
    | .error _ => .error (.badValue name value)
  | "equivalence" =>
    match Equivalence.ofName value with
    | .ok equivalence => .ok { o with policy := { o.policy with equivalence := equivalence } }
    | .error _ => .error (.badValue name value)
  | _ => .error (.unknownOption s!"--{name}")

/-- The options with the path of the problem set. -/
def withPath (o : Options) (path : String) : Except UsageError Options :=
  match o.path with
  | none => .ok { o with path := some path }
  | some _ => .error (.unexpectedArgument path)

/-- The options with paths added, after `--`. -/
def withPaths (o : Options) : List String → Except UsageError Options
  | [] => .ok o
  | path :: paths =>
    match o.withPath path with
    | .error error => .error error
    | .ok o => o.withPaths paths

/-- An argument that begins with two hyphens: the name of the option, and its value if there is an
`=` after the name. -/
def splitLong (chars : List Char) : String × Option String :=
  let name := String.ofList (chars.takeWhile (· != '='))
  match chars.dropWhile (· != '=') with
  | [] => (name, none)
  | value => (name, some (String.ofList (value.dropWhile (· == '='))))

/-- Adds what the arguments ask for to the options. -/
def addArgs (o : Options) : List String → Except UsageError Options
  | [] => .ok o
  | argument :: arguments =>
    match argument.toList with
    | ['-', '-'] => o.withPaths arguments
    | '-' :: '-' :: chars =>
      match splitLong chars with
      | (name, some value) =>
        match o.withValue name value with
        | .error error => .error error
        | .ok o => o.addArgs arguments
      | (name, none) =>
        if isFlag name then
          match o.withFlag name with
          | .error error => .error error
          | .ok o => o.addArgs arguments
        else
          match arguments with
          | [] => .error (.missingValue name)
          | value :: arguments =>
            match o.withValue name value with
            | .error error => .error error
            | .ok o => o.addArgs arguments
    | '-' :: flag :: flags =>
      if (flag :: flags).all (· == 'v') then
        { o with verbosity := o.verbosity + (flag :: flags).length }.addArgs arguments
      else .error (.unknownOption argument)
    | _ =>
      match o.withPath argument with
      | .error error => .error error
      | .ok o => o.addArgs arguments

/-- The options that the arguments ask for. -/
def ofArgs (arguments : List String) : Except UsageError Options :=
  match addArgs {} arguments with
  | .error error => .error error
  | .ok o => if o.path.isSome && o.sequent.isSome then .error .conflict else .ok o

/-! ### The name of the problem -/

/-- The parts of a path between slashes that name something. -/
def pathParts (path : List Char) : List (List Char) :=
  (path.splitOn '/').filter fun part => part != [] && part != ['.']

/-- A file name without its last extension.  A name whose only dot comes first has none. -/
def dropExtension (name : List Char) : List Char :=
  match name.reverse.dropWhile (· != '.') with
  | [] => name
  | _dot :: stem => if stem.isEmpty then name else stem.reverse

/-- The name of the file at a path without its last extension. -/
def fileStem? (path : String) : Option String :=
  match (pathParts path.toList).getLast? with
  | none => none
  | some ['.', '.'] => none
  | some name => some (String.ofList (dropExtension name))

/-- The name under which results are reported. -/
def problemName (o : Options) : String :=
  if o.sequent.isSome then "sequent" else (o.path.bind fileStem?).getD "stdin"

end Options

end SequentCalculus.CommandLine
