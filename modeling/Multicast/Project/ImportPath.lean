import Multicast.Package.Loading
import Multicast.Project.Workspace

/-!
# Import paths

The import path of a directory is the path of the module it lies in, followed by the names that
lead to it from the directory of the module file. A directory outside of any module goes by its own
absolute path. Either way, all spellings of a directory have one import path.
-/

namespace Multicast

open Files

/-- The module path that a line of a module file gives. -/
def modulePathIn (line : List Char) : Option String := do
  let code := Text.trim (beforeComment line)
  let rest ← Text.after? "module".toList code
  let first ← rest.head?
  if !Text.isBlank first && first ≠ '"' then failure
  let path := Text.strip (fun c => c = '"' || c = Source.rawQuote) (Text.trim rest)
  if path.isEmpty then failure
  return String.ofList path
where
  /-- What stands before the first `//` of a line. -/
  beforeComment : List Char → List Char
    | '/' :: '/' :: _ => []
    | c :: cs => c :: beforeComment cs
    | [] => []

/-- The module path that a module file gives. -/
def modulePath? (contents : String) : Option String :=
  (Text.lines contents.toList).findSome? modulePathIn

/-- The name of module files. -/
def moduleFile : String := "go.mod"

namespace Workspace

/-- The import path of a place, given the names from the root to a directory above it in reverse,
and the names from there to the place. -/
def importPathFrom (w : Workspace) : List String → List String → Except LoadError String
  | above, below =>
    let file := above.reverse ++ [moduleFile]
    let outside : Except LoadError String := match above with
      | [] => .ok (Place.text below)
      | name :: above => importPathFrom w above (name :: below)
    match w.tree.get? file with
    | some (.file contents) =>
      match String.fromUTF8? contents with
      | none => .error (.unreadable (Place.text file) .notText)
      | some text =>
        match modulePath? text with
        | some path => .ok ("/".intercalate (path :: below))
        | none => outside
    | _ => outside

/-- The import path of a directory, which need not exist. -/
def importPath (w : Workspace) (dir : String) : Except LoadError String :=
  w.importPathFrom (Path.absolute w.cwd dir).reverse []

/-! ### Packages in directories -/

/-- Whether a file counts as a source file of a package. -/
def isSourceName (name : String) : Bool :=
  let name := name.toList
  ".go".toList.isSuffixOf name && !"_test.go".toList.isSuffixOf name && name.head? ≠ some '.'

/-- The texts of the source files among the entries of a directory. -/
def sourceTexts (dir : String) : List (String × Node) → Except LoadError (List SourceText)
  | [] => .ok []
  | (name, .file contents) :: entries =>
    if isSourceName name then
      match String.fromUTF8? contents with
      | none => .error (.unreadable (Path.join dir name) .notText)
      | some text => do return ⟨name, text⟩ :: (← sourceTexts dir entries)
    else sourceTexts dir entries
  | (_, .directory) :: entries => sourceTexts dir entries

/-- Loads the package in a directory. -/
def load (w : Workspace) (dir : String) : Except LoadError Package := do
  let path ← w.importPath dir
  let entries ← (w.tree.list w.cwd dir).mapError (.unreadable dir)
  let sources ← sourceTexts dir entries
  Package.ofSourcesIn dir path sources

end Workspace

end Multicast
