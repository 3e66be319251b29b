import Multicast.Types.PackageId

/-!
# Types of the source language

A `GoType` is a type as a declaration writes it, with every name already led back to the package
that owns it. Types, signatures, interfaces and structs contain each other, so they are defined
together.
-/

namespace Multicast

/-- Which ends of a channel a channel type gives access to. -/
inductive Direction
  | both
  | send
  | receive
  deriving DecidableEq, Repr

mutual

/-- A type. -/
inductive GoType
  /-- A predeclared type. -/
  | basic (name : String)
  /-- A type that a package declares. -/
  | named (package : PackageId) (name : String)
  | pointer (elem : GoType)
  | slice (elem : GoType)
  /-- An array. Its length is kept as the expression that was written. -/
  | array (length : String) (elem : GoType)
  | map (key value : GoType)
  | chan (direction : Direction) (elem : GoType)
  | func (signature : Signature)
  | interface (body : Interface)
  | struct (fields : List Field)

/-- Parameters and results of a function. The last parameter of a variadic function has the slice
type that its arguments are collected in. -/
structure Signature where
  params : List Param
  results : List Param
  variadic : Bool

/-- A parameter or result. A parameter without a name has the empty name. -/
structure Param where
  name : String
  type : GoType

/-- A method of an interface. -/
structure Method where
  name : String
  signature : Signature

/-- An interface as it is written: its own methods, and the types it embeds. -/
structure Interface where
  methods : List Method
  embeds : List GoType

/-- A field of a struct. An embedded field has no name. -/
structure Field where
  name : Option String
  type : GoType
  tag : Option String

end

deriving instance BEq for GoType, Signature, Param, Method, Interface, Field
deriving instance Repr for GoType, Signature, Param, Method, Interface, Field
deriving instance Inhabited for GoType, Signature, Param, Method, Interface, Field

/-- The names of the predeclared types. -/
def predeclared : List String := [
  "any", "bool", "byte", "comparable", "complex64", "complex128", "error", "float32", "float64",
  "int", "int8", "int16", "int32", "int64", "rune", "string", "uint", "uint8", "uint16", "uint32",
  "uint64", "uintptr"]

namespace GoType

/-- The interface of the predeclared type `error`. -/
def errorInterface : Interface :=
  ⟨[⟨"Error", ⟨[], [⟨"", .basic "string"⟩], false⟩⟩], []⟩

/-- The interface of the predeclared type `any`. -/
def anyInterface : Interface :=
  ⟨[], []⟩

/-- A channel type that only receives. -/
def isReceiver : GoType → Bool
  | chan .receive _ => true
  | _ => false

/-- A slice type. -/
def isSlice : GoType → Bool
  | slice _ => true
  | _ => false

end GoType

end Multicast
