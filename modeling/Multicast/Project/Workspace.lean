import Multicast.Files.Tree
import Multicast.Hook.Config
import Multicast.Text.Utf8

/-!
# The workspace of a run

What a run of the generator can observe: the file tree, the directory it starts in, and the
formatting tools that can be started. A tool is what it makes of its input. An exchange with a tool
can go wrong in three ways: the tool does not start, it cannot be fed or waited for, or it rejects
its input. Only in the last case is what it says of any interest.
-/

namespace Multicast

/-- What a tool leaves behind. -/
structure ToolRun where
  stdout : ByteArray
  stderr : ByteArray
  exitCode : Nat

/-- A tool that has started, as what it makes of its input, or why the exchange with it breaks off. -/
abbrev Tool := ByteArray → Except Files.Fault ToolRun

/-- What a run can observe. -/
structure Workspace where
  tree : Files.Tree
  cwd : Files.Place
  /-- The tool that starts under a name, or why none does. -/
  tool : String → Except Files.Fault Tool

/-- Why a text could not be formatted. -/
inductive FormatError
  /-- The tool does not start. -/
  | spawn (tool : String) (fault : Files.Fault)
  /-- The tool cannot be fed, or it cannot be waited for. -/
  | exchange (tool : String) (fault : Files.Fault)
  /-- The tool rejects its input. -/
  | failed (tool stderr : String)
  deriving DecidableEq, Repr

/-- The wording of a failed formatting. -/
def FormatError.message : FormatError → String
  | spawn tool fault => tool ++ ": failed to start: " ++ fault.message
  | exchange tool fault => tool ++ ": IO error: " ++ fault.message
  | failed tool stderr => tool ++ ": " ++ stderr

/-- Formats a text with a tool. A broken exchange is told before the tool's own verdict, which is then
never read. What the tool says of a text that it rejects is told without the blanks around it. -/
def Workspace.runTool (w : Workspace) (name : String) (source : ByteArray) :
    Except FormatError ByteArray :=
  match w.tool name with
  | .error fault => .error (.spawn name fault)
  | .ok tool =>
    match tool source with
    | .error fault => .error (.exchange name fault)
    | .ok run =>
      if run.exitCode = 0 then .ok run.stdout
      else
        let said := Text.trim (Text.Utf8.decode run.stderr).toList
        .error (.failed name (String.ofList said))

/-- Formats a text. -/
def Workspace.format (w : Workspace) (formatter : Formatter) (source : ByteArray) :
    Except FormatError ByteArray :=
  match formatter with
  | .noop => .ok source
  | .gofmt | .goimports => w.runTool formatter.name source

end Multicast
