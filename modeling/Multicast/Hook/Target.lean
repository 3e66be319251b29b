import Multicast.Ascending
import Multicast.Hook.Location
import Multicast.Types.PackageId

/-!
# Where a hook goes

A hook may join the package of its interface or go to another one. Which of the two it is decides
how the generated file names its own package and the interface, and what it has to import.
-/

namespace Multicast

/-- The package of the interface, and the package that the hook goes to. -/
structure Target where
  source : PackageId
  destination : PackageId
  deriving DecidableEq, Repr

namespace Target

/-- Whether the hook joins the package of its interface. -/
def samePackage (target : Target) : Bool :=
  target.source.path = target.destination.path

/-- The package name of the generated file. -/
def packageName (target : Target) : String :=
  if target.samePackage then target.source.name else target.destination.name

/-- The interface as the generated file refers to it. -/
def interfaceRef (target : Target) (interface : String) : String :=
  if target.samePackage then interface else target.source.name ++ "." ++ interface

end Target

/-- The name of the hook type, unless the destination gives one. -/
def defaultHookName : String := "Hook"

/-- The name of the hook type. -/
def Location.hookName (destination : Location) : String :=
  if destination.object.isEmpty then defaultHookName else destination.object

/-- Import paths in ascending order. -/
abbrev Paths := List String

/-- The import paths of a generated file, given the packages its types mention: all but the
destination itself, and the package of the interface if it is another one. -/
def Target.imports (target : Target) (mentioned : Paths) : Paths :=
  let others := (Ascending.ofList id mentioned).filter (· ≠ target.destination.path)
  if target.samePackage then others else Ascending.insert id target.source.path others

end Multicast
