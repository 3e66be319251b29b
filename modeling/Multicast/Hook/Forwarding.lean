import Multicast.Hook.HookedMethod
import Multicast.Hook.Target

/-!
# The forwarding method

The forwarding method takes the parameters of the hooked method and passes each of them on. The
types of the parameters are written as the destination package sees them; the packages they mention
are noted on the way, since the file has to import them.
-/

namespace Multicast

/-- The name of a parameter in the forwarding method. One that has none is called after its
place. -/
def HookedParam.forwardedName (param : HookedParam) (index : Nat) : String :=
  if param.isUnnamed then "arg" ++ toString index else param.name

/-- The parameters of the forwarding method in three forms. -/
structure Forwarding where
  /-- Names with types, as they are declared. -/
  declaration : List String
  /-- As they are passed on. -/
  call : List String
  /-- Names alone. -/
  names : List String
  deriving DecidableEq, Repr

/-- How a package is written in front of its types inside the package at `destination`. The package
is noted, also if nothing is written. -/
def qualifierIn (destination : String) (package : PackageId) : StateM Paths String := do
  modify (Ascending.insert id package.path)
  return if package.path = destination then "" else package.name

/-- Writes one parameter: as it is declared, and as it is passed on. -/
def HookedParam.forward (destination : String) (param : HookedParam) (name : String) :
    StateM Paths (String × String) := do
  match param.type, param.variadicTail with
  | .slice elem, true =>
    let elem ← elem.renderM (qualifierIn destination)
    return (name ++ " ..." ++ elem, name ++ "...")
  | type, _ =>
    let type ← type.renderM (qualifierIn destination)
    return (name ++ " " ++ type, name)

/-- Writes parameters, the first of which has the given place. -/
def forwardAll (destination : String) : Nat → List HookedParam → StateM Paths Forwarding
  | _, [] => return ⟨[], [], []⟩
  | index, param :: params => do
    let name := param.forwardedName index
    let (declared, passed) ← param.forward destination name
    let others ← forwardAll destination (index + 1) params
    return ⟨declared :: others.declaration, passed :: others.call, name :: others.names⟩

/-- The parameters of the method that forwards `method` inside the package at `destination`. -/
def HookedMethod.forwarding (method : HookedMethod) (destination : String) :
    StateM Paths Forwarding :=
  forwardAll destination 0 method.params

end Multicast
