import Multicast.Hook.Config
import Multicast.Hook.Forwarding
import Multicast.Hook.FreshName
import Multicast.Hook.HookFile

/-!
# Planning a hook

A plan settles every slot of the generated file. It fails if a name would be declared twice: the
generated file has methods, fields and types of its own, and neither the hooked method nor the hook
type may be called like one of them.
-/

namespace Multicast

/-- What a reserved name was meant for. -/
inductive Role
  | method
  | hookType
  deriving DecidableEq, Repr

/-- How a role is named. -/
def Role.text : Role → String
  | method => "hooked method name"
  | hookType => "hook type name"

/-- A name that the generated file declares by itself. -/
structure ReservedName where
  name : String
  role : Role
  deriving DecidableEq, Repr

/-- The wording of a reserved name. -/
def ReservedName.message (r : ReservedName) : String :=
  "'" ++ r.name ++ "' can't be used as the " ++ r.role.text ++
    "; the generated code declares it already"

/-- The methods and fields that every hook type has. -/
def reservedMethods : List String := ["Append", "remove", "list", "mu"]

/-- The types that every generated file declares next to the hook type. -/
def reservedTypes : List String := ["hooked", "Cancel"]

/-- Settles the slots of the file that hooks `method` as `config` asks for. -/
def HookFile.ofMethod (config : Config) (method : HookedMethod) (target : Target) :
    Except ReservedName HookFile :=
  let interface := config.source.object
  let hookName := config.destination.hookName
  if method.name ∈ reservedMethods then .error ⟨method.name, .method⟩
  else if hookName ∈ reservedTypes ∨ (target.samePackage ∧ hookName = interface) then
    .error ⟨hookName, .hookType⟩
  else
    let (forwarding, mentioned) := (method.forwarding target.destination.path).run []
    let receiver := freshName "h" (forwarding.names ++ ["item", "entry"])
    .ok {
      packageName := target.packageName
      imports := target.imports mentioned
      hookName
      interfaceRef := target.interfaceRef interface
      methodName := method.name
      declarationArgs := forwarding.declaration
      callArgs := forwarding.call
      threadSafe := config.threadSafe
      receiver
      entry := freshName "entry" (forwarding.names ++ [receiver]) }

/-- Why no hook can be planned for an interface. -/
inductive HookError
  | extract (error : ExtractError)
  | reserved (name : ReservedName)
  deriving DecidableEq, Repr

/-- The wording of a failed plan. -/
def HookError.message : HookError → String
  | extract error => error.message
  | reserved name => name.message

/-- Settles the slots of the file that hooks an interface of a package and goes to another
package, or the same. -/
def HookFile.ofInterface (pkg : Package) (interface : String) (destination : PackageId)
    (config : Config) : Except HookError HookFile := do
  let method ← (pkg.extract interface).mapError .extract
  (ofMethod config method ⟨pkg.id, destination⟩).mapError .reserved

end Multicast
