import Multicast.Syntax.Scope

/-!
# Parameter lists

In a parameter list a lone name may be a parameter whose type follows later, as in `(a, b int)`,
or the type of a parameter without a name, as in `(int, string)`. Which of the two it is shows only
once the whole list is read. So the list is read as a list of `Entry`, and `resolve` then makes
parameters out of them: if one entry has both a name and a type, all lone names are parameters.
-/

namespace Multicast.Syntax

open Source Multicast.Syntax.Parser

/-- An entry of a parameter list as it is written. -/
inductive Entry
  /-- A name alone. -/
  | lone (name : String) (pos : Position)
  /-- A name and a type, with or without three dots between them. -/
  | named (name : String) (dots : Bool) (type : GoType) (pos : Position)
  /-- A type that is not a lone name, with or without three dots before it. -/
  | unnamed (dots : Bool) (type : GoType) (pos : Position)

namespace Entry

/-- Whether an entry has both a name and a type. -/
def isNamed : Entry → Bool
  | named .. => true
  | _ => false

/-- Reads an entry. -/
def parse (type : Parser GoType) : Parser Entry := fun tokens =>
  match tokens with
  | [] => wanted .type []
  | t :: rest =>
    let next := rest.head?.map Token.kind
    if t.kind = .identifier ∧ (next = some .comma ∨ next = some .rightParen) then
      .ok ⟨.lone t.text t.pos, [], rest⟩
    else if t.kind = .identifier ∧ next ≠ some .dot then
      (do let dots ← accept .ellipsis
          let written ← type
          return named t.text dots written t.pos : Parser Entry) rest
    else
      (do let dots ← accept .ellipsis
          let written ← type
          return unnamed dots written t.pos : Parser Entry) (t :: rest)

/-- Reads the entries of a list up to its closing parenthesis. A comma may follow the last one. -/
def parseAll (type : Parser GoType) : Nat → Parser (List Entry)
  | 0 => wanted .commaOrParen
  | n + 1 => do
    if ← accept .rightParen then return []
    let first ← parse type
    unless ← accept .comma do
      unless ← at? .rightParen do
        wanted .commaOrParen
    let others ← parseAll type n
    return first :: others

end Entry

/-- A parameter list: its parameters, and whether the last one is variadic. -/
structure ParameterList where
  params : List Param
  variadic : Bool

/-- Makes a parameter list out of entries. `named` tells whether some entry of the whole list has
a name and a type, `waiting` are the lone names whose type is still to come. -/
def resolve (scope : Scope) (allowDots named : Bool) :
    List Entry → List String → Parser ParameterList
  | [], [] => return ⟨[], false⟩
  | [], name :: _ => fail (.untypedParameters name)
  | .lone name pos :: entries, waiting =>
    if named then resolve scope allowDots named entries (waiting ++ [name])
    else do
      let type ← scope.localType name pos
      let list ← resolve scope allowDots named entries waiting
      return { list with params := ⟨"", type⟩ :: list.params }
  | .named name dots type pos :: entries, waiting =>
    if dots && !(allowDots && entries.isEmpty && waiting.isEmpty) then
      failAt pos .misplacedEllipsis
    else do
      let type := if dots then GoType.slice type else type
      let list ← resolve scope allowDots named entries []
      return ⟨waiting.map (⟨·, type⟩) ++ ⟨name, type⟩ :: list.params, dots || list.variadic⟩
  | .unnamed dots type pos :: entries, waiting =>
    if dots && !(allowDots && entries.isEmpty && waiting.isEmpty) then
      failAt pos .misplacedEllipsis
    else if named then failAt pos .mixedParameters
    else do
      let type := if dots then GoType.slice type else type
      let list ← resolve scope allowDots named entries waiting
      return ⟨⟨"", type⟩ :: list.params, dots || list.variadic⟩

/-- Reads a parameter list in its parentheses. -/
def parameters (scope : Scope) (type : Parser GoType) (allowDots : Bool) :
    Parser ParameterList := do
  let _ ← expect .leftParen .leftParen
  let entries ← bounded (Entry.parseAll type)
  resolve scope allowDots (entries.any Entry.isNamed) entries []

end Multicast.Syntax
