import Multicast.Package.MethodSet

/-!
# The hooked method

A hook forwards one method to many listeners. It can do so for an interface with exactly one method
and no results, for there would be no telling which listener's results to return. `extract` finds
that method, or says what stands in the way.
-/

namespace Multicast

/-- A parameter of the hooked method. A variadic tail has a slice type. -/
structure HookedParam where
  name : String
  type : GoType
  variadicTail : Bool
  deriving BEq, Repr

/-- Whether a parameter cannot be referred to by its name. -/
def HookedParam.isUnnamed (param : HookedParam) : Bool :=
  param.name = "" || param.name = "_"

/-- The method that a hook forwards. -/
structure HookedMethod where
  name : String
  params : List HookedParam
  deriving BEq, Repr

/-- The last parameter, if it takes any number of arguments. -/
def HookedMethod.variadicTail? (method : HookedMethod) : Option HookedParam :=
  method.params.getLast?.filter HookedParam.variadicTail

/-- Why an object cannot be hooked. -/
inductive ExtractError
  | emptyName
  | notFound (name : String)
  | notAnInterface (name kind : String)
  | emptyInterface (name : String)
  | tooManyMethods (name : String) (count : Nat)
  | hasResults (name method : String)
  | unresolved (error : ResolveError)
  deriving DecidableEq, Repr

/-- The wording of a failed extraction. -/
def ExtractError.message : ExtractError → String
  | emptyName => "empty name"
  | notFound name => "'" ++ name ++ "' not found in scope"
  | notAnInterface name kind => "'" ++ name ++ "' is not an interface; it is '" ++ kind ++ "'"
  | emptyInterface name => "interface '" ++ name ++ "' is empty"
  | tooManyMethods name count =>
    "interface '" ++ name ++ "' has " ++ toString count ++ " methods, expected exactly one"
  | hasResults name method =>
    "method " ++ name ++ "." ++ method ++
      " has results; only methods without results can be hooked"
  | unresolved error => error.message

/-- The parameters of a signature, with a slice at the end of a variadic one marked as its tail. -/
def hookedParams (variadic : Bool) : List Param → List HookedParam
  | [] => []
  | [⟨name, type⟩] => [⟨name, type, variadic && type.isSlice⟩]
  | ⟨name, type⟩ :: params => ⟨name, type, false⟩ :: hookedParams variadic params

namespace Package

/-- The type that a name is declared as. -/
def declaredType (pkg : Package) (name : String) : Except ExtractError GoType :=
  match pkg.lookup? name with
  | none => .error (.notFound name)
  | some object =>
    match object.kind with
    | .type type _ => .ok type
    | .unsupported reason => .error (.unresolved (.unsupported name reason))
    | .func => .error (.notAnInterface name "func")
    | .var => .error (.notAnInterface name "var")
    | .const => .error (.notAnInterface name "const")

/-- The only method of an interface, given all its methods. -/
def onlyMethod (name : String) : List Method → Except ExtractError Method
  | [] => .error (.emptyInterface name)
  | [method] =>
    if method.signature.results.isEmpty then .ok method
    else .error (.hasResults name method.name)
  | methods => .error (.tooManyMethods name methods.length)

/-- The method that a hook for the interface called `name` forwards. -/
def extract (pkg : Package) (name : String) : Except ExtractError HookedMethod := do
  if name.isEmpty then throw .emptyName
  let declared ← pkg.declaredType name
  match ← (pkg.underlying declared).mapError .unresolved with
  | .interface body =>
    let methods ← (pkg.methodSet body).mapError .unresolved
    let method ← onlyMethod name methods
    return ⟨method.name, hookedParams method.signature.variadic method.signature.params⟩
  | other => throw (.notAnInterface name other.canonical)

end Package

end Multicast
