import Multicast.Hook.Plan
import Multicast.Project.ImportPath

/-!
# Generating a hook

From a configuration to a file: check the configuration, load the package of the interface, find
the import path of the destination, plan the hook, format the text of its file, and write it. The
first step that fails ends the run. Only the last step changes the file tree, and it says so by its
type.
-/

namespace Multicast

/-- What a file is planned for. -/
inductive Purpose
  /-- To show what would be generated. -/
  | showing
  /-- To generate it. -/
  | generating
  deriving DecidableEq, Repr

/-- What is being done for a purpose. -/
def Purpose.text : Purpose → String
  | showing => "resolving hook template"
  | generating => "running Go hook generator"

/-- Why no file was generated. -/
inductive GenerateError
  | config (error : ConfigError)
  | loading (dir : String) (error : LoadError)
  | locating (dir : String) (error : LoadError)
  | extract (error : ExtractError)
  | reserved (purpose : Purpose) (name : ReservedName)
  | format (error : FormatError)
  | creating (dir : String) (fault : Files.Fault)
  | writing (path : String) (fault : Files.Fault)
  deriving DecidableEq, Repr

/-- The causes behind the wording of a failed loading. -/
def LoadError.causes : LoadError → List String
  | .unreadable _ fault => [fault.message]
  | _ => []

/-- The causes behind the wording of a failed formatting. -/
def FormatError.causes : FormatError → List String
  | .spawn _ fault | .exchange _ fault => [fault.message]
  | .failed _ _ => []

namespace GenerateError

/-- What is told of a failure, from what was being done to the innermost cause. -/
def chain : GenerateError → List String
  | config error => ["invalid configuration: " ++ error.message, error.message]
  | loading dir error => ["loading source package " ++ dir, error.message] ++ error.causes
  | locating dir error => ["resolving import path of " ++ dir, error.message] ++ error.causes
  | extract error => [error.message]
  | reserved purpose name => [purpose.text, name.message]
  | format error =>
    ["formatting generated code: " ++ error.message, error.message] ++ error.causes
  | creating dir fault => ["creating output directory " ++ dir, fault.message]
  | writing path fault => ["writing generated file " ++ path, fault.message]

end GenerateError

namespace Workspace

/-- The hooked method, and the target of the hook. -/
def examine (w : Workspace) (config : Config) :
    Except GenerateError (HookedMethod × Target) := do
  config.validate.mapError .config
  let pkg ← (w.load config.source.dir).mapError (.loading config.source.dir)
  let path ← (w.importPath config.destination.dir).mapError (.locating config.destination.dir)
  let method ← (pkg.extract config.source.object).mapError .extract
  return (method, ⟨pkg.id, .ofPath path⟩)

/-- The settled slots of the file. -/
def plan (w : Workspace) (config : Config) : Except GenerateError HookFile := do
  let (method, target) ← w.examine config
  (HookFile.ofMethod config method target).mapError (.reserved .showing)

/-- The formatted text of the file. -/
def render (w : Workspace) (config : Config) : Except GenerateError ByteArray := do
  let (method, target) ← w.examine config
  let file ← (HookFile.ofMethod config method target).mapError (.reserved .generating)
  (w.format config.formatter file.render.toUTF8).mapError .format

/-- Writes a file into a directory, which is made if it is missing. The answer is the path of the
file. -/
def write (w : Workspace) (dir file : String) (contents : ByteArray) :
    Workspace × Except GenerateError String :=
  match w.tree.makePath w.cwd dir with
  | (tree, .error fault) => ({ w with tree }, .error (.creating dir fault))
  | (tree, .ok ()) =>
    let path := Files.Path.join dir file
    match tree.write w.cwd path contents with
    | .error fault => ({ w with tree }, .error (.writing path fault))
    | .ok tree => ({ w with tree }, .ok path)

/-- Generates the file. The answer is its path. -/
def generate (w : Workspace) (config : Config) : Workspace × Except GenerateError String :=
  match w.render config with
  | .error error => (w, .error error)
  | .ok contents => w.write config.destination.dir config.fileName contents

end Workspace

end Multicast
