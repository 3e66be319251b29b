import Multicast.Syntax.Parser

/-!
# What a file lets its names mean

A type name with a package in front of it belongs to one of the file's imports. Any other type name
is predeclared, or belongs to the package of the file: it becomes a reference, which is checked
once all files of the package are known.
-/

namespace Multicast.Syntax

open Source Multicast.Syntax.Parser

/-- An import of a file, with the name written in front of its path, if there is one. -/
structure Import where
  written : Option String
  package : PackageId
  deriving DecidableEq, Repr

namespace Import

/-- The name by which the file refers to the import. Dot and blank imports have none. -/
def localName? (i : Import) : Option String :=
  match i.written with
  | some "_" | some "." => none
  | some name => some name
  | none => some i.package.name

/-- Whether the names of the imported package are used without its name in front. -/
def isDot (i : Import) : Bool :=
  i.written = some "."

end Import

/-- What a file lets its names mean: its own package, and its imports in the order in which they
are written. -/
structure Scope where
  package : PackageId
  imports : List Import
  deriving DecidableEq, Repr

namespace Scope

/-- The import a name refers to. Of two with one name, the later is meant. -/
def import? (s : Scope) (name : String) : Option PackageId :=
  (s.imports.reverse.find? (·.localName? = some name)).map Import.package

/-- The type that a name without a package in front of it means. -/
def localType (s : Scope) (name : String) (pos : Position) : Parser GoType := do
  if name ∈ predeclared then return .basic name
  refer ⟨name, pos⟩
  return .named s.package name

/-- Reads a type name. Type arguments behind it are not supported. -/
def typeName (s : Scope) : Parser GoType := do
  let first ← name
  let type ← if ← accept .dot then do
      let second ← name
      match s.import? first.text with
      | some package => pure (GoType.named package second.text)
      | none => failAt first.pos (.undefined first.text)
    else s.localType first.text first.pos
  if ← at? .leftBracket then failAt first.pos .instantiation
  return type

end Scope

end Multicast.Syntax
