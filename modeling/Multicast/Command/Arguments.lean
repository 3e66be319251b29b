import Multicast.Hook.Config

/-!
# Command line arguments

The system hands arguments over as bytes. Flags are written with one dash or with two, and `normalize`
gives every flag of more than one letter two dashes. It looks into text only: an argument that is no
text keeps the dashes that it has.

Which flags there are, and which of them take a value, is known to a reader that sees normalized
arguments and nothing else. The reader is a parameter of `parse`; it answers with what is asked for,
or it refuses in words of its own.
-/

namespace Multicast.Command

/-- An argument, as the bytes that the system hands over. -/
abbrev Argument := ByteArray

/-- Arguments are compared byte by byte. -/
instance : DecidableEq Argument := fun arg arg' =>
  decidable_of_iff (arg.data = arg'.data) ⟨ByteArray.ext, congrArg ByteArray.data⟩

/-! ### One dash or two -/

/-- The argument behind which no flags are looked for. -/
def endOfFlags : Argument := "--".toUTF8

/-- Whether a text is a flag of more than one letter behind a single dash. -/
def isShortened (text : String) : Bool :=
  text.utf8ByteSize > 2 &&
    match text.toList with
    | '-' :: '-' :: _ => false
    | '-' :: _ => true
    | _ => false

/-- An argument, with two dashes if it is a flag of more than one letter. -/
def lengthened (arg : Argument) : Argument :=
  match String.fromUTF8? arg with
  | some text => if isShortened text then ("-" ++ text).toUTF8 else arg
  -- The dashes of an argument that is no text are not counted.
  | none => arg

/-- Gives flags two dashes, up to a bare `--`. -/
def normalizeFlags : List Argument → List Argument
  | [] => []
  | arg :: args =>
    if arg = endOfFlags then arg :: args else lengthened arg :: normalizeFlags args

/-- Gives the flags behind the program name two dashes. -/
def normalize : List Argument → List Argument
  | [] => []
  | program :: args => program :: normalizeFlags args

/-! ### Reading -/

/-- What the arguments ask for. -/
structure Arguments where
  src : String := ""
  dst : String := ""
  safe : Bool := false
  formatter : Formatter := .gofmt
  file : String := defaultFileName
  plan : Bool := false
  verbose : Bool := false
  version : Bool := false
  deriving DecidableEq, Repr

/-- The configuration that arguments describe. -/
def Arguments.config (args : Arguments) : Config where
  source := .parse args.src
  destination := .parse args.dst
  threadSafe := args.safe
  formatter := args.formatter
  fileName := args.file

/-- What arguments ask for, the first of which is the name of the program, as `read` has it from the
normalized ones. -/
def parse {ε : Type} (read : List Argument → Except ε Arguments) (args : List Argument) :
    Except ε Arguments :=
  read (normalize args)

end Multicast.Command
