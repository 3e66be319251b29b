import Multicast.Ascending
import Multicast.Files.Fault
import Multicast.Files.Path

/-!
# File trees

A `Tree` says for each place whether a file or a directory is there. The operations take paths the
way the system does: a path is walked element by element, every element but the last has to be a
directory, and `..` goes back to the directory above the one that was reached.
-/

namespace Multicast.Files

/-- What can be at a place. -/
inductive Node
  | file (contents : ByteArray)
  | directory

/-- Whether two places have the same. -/
def Node.same : Node → Node → Bool
  | file a, file b => a.data == b.data
  | directory, directory => true
  | _, _ => false

/-- The files and directories below the root. -/
structure Tree where
  entries : List (Place × Node)

namespace Tree

/-- A root without anything below it. -/
def empty : Tree := ⟨[]⟩

/-- What is at a place. At the root there is always a directory. -/
def get? (tree : Tree) (place : Place) : Option Node :=
  if place = [] then some .directory else tree.entries.lookup place

/-- Puts something at a place, instead of what was there. -/
def put (tree : Tree) (place : Place) (node : Node) : Tree :=
  ⟨(place, node) :: tree.entries.filter (·.1 ≠ place)⟩

/-- Whether a directory is at a place. -/
def isDirectory (tree : Tree) (place : Place) : Bool :=
  match tree.get? place with
  | some .directory => true
  | _ => false

/-- What has to be put into one tree to make another one of it that was made by writing to it. A
directory comes before what lies in it. -/
def changes (before after : Tree) : List (Place × Node) :=
  (after.entries.filter fun (place, node) => !(before.get? place).any node.same).reverse

/-- The names in a directory, each with what is there. -/
def children (tree : Tree) (place : Place) : List (String × Node) :=
  Ascending.ofList Prod.fst (tree.entries.filterMap fun (other, node) =>
    if other.dropLast = place then other.getLast?.map (·, node) else none)

/-! ### Walking -/

/-- The longest name in bytes. -/
def maxName : Nat := 255

/-- The longest path in bytes. -/
def maxPath : Nat := 4095

/-- Goes from a place to an element of it. -/
def step (tree : Tree) (place : Place) (element : String) : Except Fault Place :=
  if !tree.isDirectory place then .error .notADirectory
  else if element = "." ∨ element = ".." then .ok (Path.follow place element)
  else if element.utf8ByteSize > maxName then .error .nameTooLong
  else if (tree.get? (place ++ [element])).isNone then .error .notFound
  else .ok (place ++ [element])

/-- Goes from a place along elements. -/
def walk (tree : Tree) (place : Place) (elements : List String) : Except Fault Place :=
  elements.foldlM tree.step place

/-- Where a path starts, if the system accepts it at all. -/
def start (cwd : Place) (path : String) : Except Fault Place :=
  if path.toList.contains '\x00' then .error .nulInPath
  else if path.isEmpty then .error .notFound
  else if path.utf8ByteSize > maxPath then .error .nameTooLong
  else if Path.isAbsolute path then .ok []
  else .ok cwd

/-- What a path leads to. A path that ends with a slash leads to a directory or nowhere. -/
def find (tree : Tree) (cwd : Place) (path : String) : Except Fault (Place × Node) := do
  let place ← tree.walk (← start cwd path) (Path.elements path)
  match tree.get? place with
  | none => throw .notFound
  | some .directory => return (place, .directory)
  | some (.file contents) =>
    if Path.endsWithSlash path then throw .notADirectory
    return (place, .file contents)

/-! ### Reading -/

/-- The contents of a file. -/
def read (tree : Tree) (cwd : Place) (path : String) : Except Fault ByteArray := do
  match ← tree.find cwd path with
  | (_, .file contents) => return contents
  | (_, .directory) => throw .isADirectory

/-- The names in a directory, each with what is there. -/
def list (tree : Tree) (cwd : Place) (path : String) :
    Except Fault (List (String × Node)) := do
  match ← tree.find cwd path with
  | (_, .file _) => throw .notADirectory
  | (place, .directory) => return tree.children place

/-! ### Writing -/

/-- The directory above the last of some elements, and that element. -/
def walkToLast (tree : Tree) (place : Place) (elements : List String) :
    Except Fault (Place × Option String) := do
  let above ← tree.walk place elements.dropLast
  if !tree.isDirectory above then throw .notADirectory
  return (above, elements.getLast?)

/-- Makes a directory at the end of some elements. -/
def makeDirectory (tree : Tree) (place : Place) (elements : List String) : Except Fault Tree := do
  match ← tree.walkToLast place elements with
  | (_, none) => throw .exists
  | (above, some name) =>
    if name = "." ∨ name = ".." then throw .exists
    if name.utf8ByteSize > maxName then throw .nameTooLong
    if (tree.get? (above ++ [name])).isSome then throw .exists
    return tree.put (above ++ [name]) .directory

/-- Whether some elements lead to a directory. -/
def leadsToDirectory (tree : Tree) (place : Place) (elements : List String) : Bool :=
  match tree.walk place elements with
  | .ok place => tree.isDirectory place
  | .error _ => false

/-- Makes the first of several directories, each of which lies in the next, and before it those of
the others that are missing. What was made before a fault stays. -/
def makeDirectories (tree : Tree) (place : Place) :
    List (List String) → Tree × Except Fault Unit
  | [] => (tree, .ok ())
  | elements :: above =>
    match tree.makeDirectory place elements with
    | .ok tree => (tree, .ok ())
    | .error .notFound =>
      match tree.makeDirectories place above with
      | (tree, .error fault) => (tree, .error fault)
      | (tree, .ok ()) =>
        match tree.makeDirectory place elements with
        | .ok tree => (tree, .ok ())
        | .error fault =>
          (tree, if tree.leadsToDirectory place elements then .ok () else .error fault)
    | .error fault =>
      (tree, if tree.leadsToDirectory place elements then .ok () else .error fault)

/-- Makes a directory and those above it that are missing. -/
def makePath (tree : Tree) (cwd : Place) (path : String) : Tree × Except Fault Unit :=
  if path.isEmpty then (tree, .ok ())
  else match start cwd path with
    | .error fault => (tree, .error fault)
    | .ok place => tree.makeDirectories place (Path.elements path :: Path.parents path)

/-- Writes a file, which need not exist, into a directory, which has to. -/
def write (tree : Tree) (cwd : Place) (path : String) (contents : ByteArray) :
    Except Fault Tree := do
  match ← tree.walkToLast (← start cwd path) (Path.elements path) with
  | (_, none) => throw .isADirectory
  | (above, some name) =>
    if name = "." ∨ name = ".." ∨ Path.endsWithSlash path then throw .isADirectory
    if name.utf8ByteSize > maxName then throw .nameTooLong
    if tree.isDirectory (above ++ [name]) then throw .isADirectory
    return tree.put (above ++ [name]) (.file contents)

end Tree

end Multicast.Files
