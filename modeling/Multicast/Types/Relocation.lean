import Multicast.Types.GoType

/-!
# Moving types between packages

`relocateM` goes through a type from left to right and lets a function replace the package of each
declared type it meets; the function is told the package and the name. Like a qualifier, it may
take notes and therefore works in a monad. Nothing but packages changes.
-/

namespace Multicast

section

variable {m : Type → Type} [Monad m] (move : PackageId → String → m PackageId)

mutual

/-- Moves the declared types in a type. -/
def GoType.relocateM : GoType → m GoType
  | .basic name => pure (.basic name)
  | .named package name => do
    let package ← move package name
    pure (.named package name)
  | .pointer elem => do
    let elem ← elem.relocateM
    pure (.pointer elem)
  | .slice elem => do
    let elem ← elem.relocateM
    pure (.slice elem)
  | .array length elem => do
    let elem ← elem.relocateM
    pure (.array length elem)
  | .map key value => do
    let key ← key.relocateM
    let value ← value.relocateM
    pure (.map key value)
  | .chan direction elem => do
    let elem ← elem.relocateM
    pure (.chan direction elem)
  | .func signature => do
    let signature ← signature.relocateM
    pure (.func signature)
  | .interface ⟨methods, embeds⟩ => do
    let methods ← Method.relocateAllM methods
    let embeds ← GoType.relocateAllM embeds
    pure (.interface ⟨methods, embeds⟩)
  | .struct fields => do
    let fields ← Field.relocateAllM fields
    pure (.struct fields)

/-- Moves the declared types in several types. -/
def GoType.relocateAllM : List GoType → m (List GoType)
  | [] => pure []
  | type :: types => do
    let type ← type.relocateM
    let types ← GoType.relocateAllM types
    pure (type :: types)

/-- Moves the declared types in a signature. -/
def Signature.relocateM : Signature → m Signature
  | ⟨params, results, variadic⟩ => do
    let params ← Param.relocateAllM params
    let results ← Param.relocateAllM results
    pure ⟨params, results, variadic⟩

/-- Moves the declared types in parameters. -/
def Param.relocateAllM : List Param → m (List Param)
  | [] => pure []
  | ⟨name, type⟩ :: params => do
    let type ← type.relocateM
    let params ← Param.relocateAllM params
    pure (⟨name, type⟩ :: params)

/-- Moves the declared types in methods. -/
def Method.relocateAllM : List Method → m (List Method)
  | [] => pure []
  | ⟨name, signature⟩ :: methods => do
    let signature ← signature.relocateM
    let methods ← Method.relocateAllM methods
    pure (⟨name, signature⟩ :: methods)

/-- Moves the declared types in fields. -/
def Field.relocateAllM : List Field → m (List Field)
  | [] => pure []
  | ⟨name, type, tag⟩ :: fields => do
    let type ← type.relocateM
    let fields ← Field.relocateAllM fields
    pure (⟨name, type, tag⟩ :: fields)

end

end

/-- Moves the declared types in a type by a plain function. -/
def GoType.relocate (move : PackageId → String → PackageId) (type : GoType) : GoType :=
  Id.run (type.relocateM fun package name => pure (move package name))

end Multicast
