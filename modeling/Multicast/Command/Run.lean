import Multicast.Command.Arguments
import Multicast.Project.Generate

/-!
# The command

A run of the command generates a hook, or prints its plan, or prints the version. A failure is told
in one line: what was being done, and then each cause that has not been told already. Arguments that
ask for none of this end the run at once, with what their reader says of them.
-/

namespace Multicast.Command

/-- What a run leaves to be seen, apart from the files it writes. -/
structure Outcome where
  exitCode : Nat
  stdout : String
  stderr : String
  deriving DecidableEq, Repr

/-- The version of the program. -/
def versionText : String := "hoog version: 0.1.0\n"

/-- Whether a text occurs in another. -/
def occursIn (part : List Char) : List Char → Bool
  | [] => part.isEmpty
  | c :: cs => part.isPrefixOf (c :: cs) || occursIn part cs

/-- A chain of causes as one message. A cause that the message tells already is left out. -/
def joinCauses (chain : List String) : String :=
  chain.foldl (fun message cause =>
    if occursIn cause.toList message.toList then message
    else if message.isEmpty then cause
    else message ++ ": " ++ cause) ""

/-- The outcome of a run that failed. -/
def failed (error : GenerateError) : Outcome :=
  ⟨1, "", "error: " ++ joinCauses error.chain ++ "\n"⟩

/-- Does what the arguments ask for. -/
def execute (w : Workspace) (args : Arguments) : Workspace × Outcome :=
  if args.version then (w, ⟨0, versionText, ""⟩)
  else if args.plan then
    match w.plan args.config with
    | .ok file => (w, ⟨0, file.json ++ "\n", ""⟩)
    | .error error => (w, failed error)
  else
    match w.generate args.config with
    | (w, .ok _) => (w, ⟨0, "", ""⟩)
    | (w, .error error) => (w, failed error)

/-- What the reader of the arguments says when it does not tell what they ask for. -/
structure Refusal where
  /-- Whether the text was asked for, as the help is. -/
  isAnswer : Bool
  text : String
  deriving DecidableEq, Repr

/-- The outcome of a run that ends with its arguments. A text that was asked for is no failure. -/
def Refusal.outcome (refusal : Refusal) : Outcome :=
  if refusal.isAnswer then ⟨0, refusal.text, ""⟩ else ⟨1, "", refusal.text⟩

end Multicast.Command
