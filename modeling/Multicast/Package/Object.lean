import Multicast.Types.GoType

/-!
# Package-level objects

What a package declares: types, functions, variables and constants. Of the last three only the
name matters. A type declaration that lies outside of the types described by `GoType`, such as a
generic one, is an object too; it has a reason in place of a type.
-/

namespace Multicast

/-- What a package-level name stands for. -/
inductive ObjectKind
  /-- A type, or with `isAlias` a further name of a type. -/
  | type (type : GoType) (isAlias : Bool)
  /-- A type that cannot be described. -/
  | unsupported (reason : String)
  | func
  | var
  | const
  deriving BEq, Repr

/-- A name that a package declares. -/
structure Object where
  name : String
  kind : ObjectKind
  deriving BEq, Repr

/-- Whether a name stands for a type. -/
def ObjectKind.isType : ObjectKind → Bool
  | type _ _ | unsupported _ => true
  | func | var | const => false

end Multicast
