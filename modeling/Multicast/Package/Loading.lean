import Multicast.Files.Fault
import Multicast.Package.Basic
import Multicast.Syntax.File
import Multicast.Types.Relocation

/-!
# Loading a package

A package is loaded from the texts of its files. All files have to give the same package name; a
file whose build constraint says `ignore` does not count. Then the names that the files refer to
have to be declared as types by one of the files. A name that is not may come from a dot import: if
its file has exactly one, the name is taken to belong to that package, and the types of the file
that mention it are changed accordingly.

Every flaw of every file is reported, unless already the package clauses fail.
-/

namespace Multicast

open Source Syntax

/-- Why a package could not be loaded. -/
inductive LoadError
  /-- No file is left to give a package name. -/
  | noPackages (place : String)
  /-- The files give more than one package name. -/
  | tooManyPackages (place : String) (names : List String)
  /-- The files have flaws. -/
  | source (diagnostics : List Diagnostic)
  /-- A file or directory could not be read. -/
  | unreadable (path : String) (fault : Files.Fault)
  deriving DecidableEq, Repr

namespace LoadError

/-- The wording of a failed loading. -/
def message : LoadError → String
  | noPackages place => "there are no packages in '" ++ place ++ "'"
  | tooManyPackages place names =>
    "too many packages in '" ++ place ++ "': " ++ ", ".intercalate names
  | source diagnostics =>
    "there are many errors:\n - " ++ "\n - ".intercalate (diagnostics.map Diagnostic.message)
  | unreadable path fault => "IO error reading '" ++ path ++ "': " ++ fault.message

end LoadError

/-- A file of a package: its name and its text. -/
structure SourceText where
  name : String
  text : String
  deriving DecidableEq, Repr

/-! ### Build constraints -/

/-- Whether a line is a build constraint that asks for the file to be ignored. -/
def saysIgnore (line : List Char) : Bool :=
  ["//go:build", "// +build"].any fun start =>
    (Text.after? start.toList line).any fun terms => (Text.words terms).contains "ignore".toList

/-- Whether one of these lines, up to the first that begins a package clause, asks for the file to
be ignored. -/
def ignoredAmong : List (List Char) → Bool
  | [] => false
  | line :: lines =>
    let line := Text.trim line
    if (Text.after? "package ".toList line).isSome then false
    else saysIgnore line || ignoredAmong lines

/-- Whether a build constraint excludes a file. -/
def isIgnored (text : String) : Bool :=
  ignoredAmong (Text.lines text.toList)

/-! ### Names between files -/

/-- Of the first declaration of a name among these, whether it is a type. -/
def declaredAsType? (declarations : List Declaration) (name : String) : Option Bool :=
  (declarations.find? (·.object.name = name)).map (·.object.kind.isType)

/-- The flaws of names that are declared again, when the names in `seen` are declared before. -/
def redeclarations (file : String) : List String → List Declaration → List Diagnostic
  | _, [] => []
  | seen, d :: ds =>
    if d.object.name ∈ seen then
      ⟨file, d.pos, .redeclared d.object.name⟩ :: redeclarations file seen ds
    else redeclarations file (d.object.name :: seen) ds

/-- The flaws of names that are declared again by a later file or in the same one. -/
def allRedeclarations : List String → List File → List Diagnostic
  | _, [] => []
  | seen, file :: files =>
    redeclarations file.name seen file.declarations ++
      allRedeclarations (seen ++ file.declarations.map (·.object.name)) files

/-- What is wrong with a reference that the package does not declare as a type, if anything: a name
that is not declared at all is fine if there is one dot import it can come from. -/
def referenceCause? (scope : List Declaration) (dots : List PackageId) (name : String) :
    Option Cause :=
  match declaredAsType? scope name with
  | some true => none
  | some false => some (.notAType name)
  | none =>
    match dots with
    | [] => some (.undefined name)
    | [_] => none
    | _ => some (.ambiguous name)

/-- The packages that a file imports with a dot. -/
def dotImports (file : File) : List PackageId :=
  (file.imports.filter Import.isDot).map Import.package

/-- The flaws of a file's references. -/
def referenceFlaws (scope : List Declaration) (file : File) : List Diagnostic :=
  file.references.filterMap fun reference =>
    (referenceCause? scope (dotImports file) reference.name).map fun cause =>
      ⟨file.name, reference.pos, cause⟩

/-- The object of a declaration, with the names that the package at `path` does not declare moved to
the package of the file's only dot import. -/
def resolvedObject (path : String) (scope : List Declaration) (file : File) (object : Object) :
    Object :=
  match dotImports file, object.kind with
  | [dot], .type type isAlias =>
    let borrowed := (file.references.map Reference.name).filter fun name =>
      (declaredAsType? scope name).isNone
    let type := type.relocate fun package name =>
      if package.path = path ∧ name ∈ borrowed then dot else package
    { object with kind := .type type isAlias }
  | _, _ => object

/-! ### Packages from texts -/

/-- The values and the errors of several results. -/
def partitionResults {ε α : Type} : List (Except ε α) → List ε × List α
  | [] => ([], [])
  | .error e :: results =>
    let (errors, values) := partitionResults results
    (e :: errors, values)
  | .ok a :: results =>
    let (errors, values) := partitionResults results
    (errors, a :: values)

/-- The package at `path` whose files are these. -/
def linkFiles (path name : String) (files : List File) : Package :=
  let scope := files.flatMap File.declarations
  (files.flatMap fun file =>
    file.declarations.map fun d => resolvedObject path scope file d.object).foldl
      Package.insert (.empty ⟨path, name⟩)

/-- The flaws of the files of a package that only show between declarations. -/
def linkFlaws (files : List File) : List Diagnostic :=
  allRedeclarations [] files ++
    files.flatMap (referenceFlaws (files.flatMap File.declarations))

/-- Loads the package at an import path from the texts of its files. A failure names the place
where they were found. -/
def Package.ofSourcesIn (place path : String) (sources : List SourceText) : Except LoadError Package :=
  let sources := sources.filter fun s => !isIgnored s.text
  let (errors, names) := partitionResults (sources.map fun s => parsePackageName s.name s.text)
  if !errors.isEmpty then .error (.source errors)
  else match Ascending.ofList (fun name => name) names with
    | [] => .error (.noPackages place)
    | [name] =>
      let (errors, files) := partitionResults (sources.map fun s => parseFile s.name s.text path)
      let flaws := errors ++ linkFlaws files
      if flaws.isEmpty then .ok (linkFiles path name files) else .error (.source flaws)
    | names => .error (.tooManyPackages place names)

/-- Loads the package at an import path from the texts of its files. -/
def Package.ofSources (path : String) (sources : List SourceText) : Except LoadError Package :=
  ofSourcesIn path path sources

end Multicast
