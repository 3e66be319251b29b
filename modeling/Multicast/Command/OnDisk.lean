import Multicast.Command.Run

/-!
# The command on the disk

The command looks at the part of the disk that a run depends on, lets `execute` decide what to do,
and does it. It starts no other programs, so of the formatters only `noop` is at its service; a run
that asks for another one is told that the tool cannot be found.
-/

namespace Multicast.Command

open Files

/-- What the disk has at a place. -/
def nodeOnDisk (place : Place) : IO (Option Node) := do
  let path := (← IO.currentDir) / place.text
  if ← path.isDir then return some .directory
  if !(← path.pathExists) then return none
  return some (.file (← IO.FS.readBinFile path))

/-- Takes over into a tree what the disk has at a place. -/
def lookAt (tree : Tree) (place : Place) : IO Tree := do
  return ((← nodeOnDisk place).map (tree.put place)).getD tree

/-- Takes over into a tree the source files of a directory. -/
def lookInto (tree : Tree) (place : Place) : IO Tree := do
  if !tree.isDirectory place then return tree
  let entries ← ((← IO.currentDir) / place.text).readDir
  let names := entries.toList.map (·.fileName)
  (names.filter Workspace.isSourceName).foldlM (fun tree name => lookAt tree (place ++ [name])) tree

/-- The part of the disk that a run depends on: what its paths lead through, the module files on the
way, and the source files. -/
def survey (cwd : Place) (config : Config) : IO Tree := do
  let source := config.source.dir
  let written := Path.join config.destination.dir config.fileName
  let places := [source, config.destination.dir, written].flatMap (Path.waypoints cwd)
  let tree ← (places ++ places.map (· ++ [moduleFile])).foldlM lookAt .empty
  lookInto tree (Path.absolute cwd source)

/-- Puts something on the disk. -/
def putOnDisk (place : Place) (node : Node) : IO Unit := do
  let path := (← IO.currentDir) / place.text
  match node with
  | .directory => IO.FS.createDirAll path
  | .file contents => IO.FS.writeBinFile path contents

/-- Does what the arguments ask for, on the disk. -/
def executeOnDisk (args : Arguments) : IO Outcome := do
  let cwd := Path.elements (← IO.currentDir).toString
  let tree ← survey cwd args.config
  let (after, outcome) := execute ⟨tree, cwd, fun _ => .error .notFound⟩ args
  for (place, node) in tree.changes after.tree do
    putOnDisk place node
  return outcome

/-- Runs the command, given how normalized arguments are read. The answer is its exit code. -/
def runOnDisk (read : List Argument → Except Refusal Arguments) (args : List Argument) :
    IO UInt32 := do
  let outcome ← match parse read args with
    | .ok args => executeOnDisk args
    | .error refusal => pure refusal.outcome
  (← IO.getStdout).putStr outcome.stdout
  (← IO.getStderr).putStr outcome.stderr
  return outcome.exitCode.toUInt32

end Multicast.Command
