import Multicast.Syntax.Parameters

/-!
# Type expressions

The grammar of types. `typeWithin` reads a type with a budget of nesting levels; each construct
around a type costs one level and at least one token, so the number of tokens is budget enough, and
this is what `typeExpr` gives. The readers of signatures, interfaces and structs are given the reader
for the types inside them.
-/

namespace Multicast.Syntax

open Source Multicast.Syntax.Parser

/-- Whether a type can begin with a token of this kind. A type in parentheses is left out, since
behind a parameter list a parenthesis opens the results. -/
def startsResult : Kind → Bool
  | .identifier | .star | .leftBracket | .arrow => true
  | .keyword k =>
    match k with
    | .mapKw | .chanKw | .funcKw | .interfaceKw | .structKw => true
    | _ => false
  | _ => false

/-- Reads parameters and results. -/
def signature (scope : Scope) (type : Parser GoType) : Parser Signature := do
  let list ← parameters scope type true
  let results ← if ← at? .leftParen then do
      let results ← parameters scope type false
      pure results.params
    else if (← peek 0).any startsResult then do
      let result ← type
      pure [⟨"", result⟩]
    else pure []
  return ⟨list.params, results, list.variadic⟩

/-! ### Interfaces -/

/-- An element of an interface. -/
inductive Element
  | method (method : Method)
  | embed (type : GoType)

/-- Reads an element of an interface. Elements that restrict type arguments are not supported. -/
def element (scope : Scope) (type : Parser GoType) : Parser Element := do
  match ← peek 0, ← peek 1 with
  | some .identifier, some .leftParen =>
    let first ← name
    let signature ← signature scope type
    return .method ⟨first.text, signature⟩
  | some .tilde, _ => fail .constraint
  | _, _ =>
    let pos ← here
    let embedded ← type
    if ← at? .pipe then failAt pos .constraint
    return .embed embedded

/-- The interface with these elements. -/
def interfaceOf (elements : List Element) : Interface where
  methods := elements.filterMap fun
    | .method m => some m
    | .embed _ => none
  embeds := elements.filterMap fun
    | .method _ => none
    | .embed t => some t

/-- Reads the body of an interface. -/
def interfaceBody (scope : Scope) (type : Parser GoType) : Parser Interface := do
  let _ ← expect .leftBrace .leftBrace
  let elements ← bounded (braced (element scope type))
  return interfaceOf elements

/-! ### Structs -/

/-- Reads the tag of a field, if there is one. -/
def tag : Parser (Option String) := fun tokens =>
  match tokens with
  | t :: rest => if t.kind = .string then .ok ⟨some t.text, [], rest⟩ else .ok ⟨none, [], tokens⟩
  | [] => .ok ⟨none, [], tokens⟩

/-- Whether a name before a token of this kind is an embedded field and not the name of one. -/
def endsEmbedded : Kind → Bool
  | .dot | .semicolon | .rightBrace | .string => true
  | _ => false

/-- Reads an embedded field. -/
def embeddedField (type : Parser GoType) : Parser (List Field) := do
  let embedded ← type
  let tag ← tag
  return [⟨none, embedded, tag⟩]

/-- Reads fields that share a type and a tag. -/
def namedFields (type : Parser GoType) : Parser (List Field) := do
  let fields ← names
  let shared ← type
  let tag ← tag
  return fields.map fun field => ⟨some field.text, shared, tag⟩

/-- Reads a line of a struct. -/
def fields (type : Parser GoType) : Parser (List Field) := do
  match ← peek 0 with
  | some .star => embeddedField type
  | some .identifier =>
    if (← peek 1).any endsEmbedded then embeddedField type else namedFields type
  | _ => wanted .field

/-- Reads the body of a struct. -/
def structBody (type : Parser GoType) : Parser (List Field) := do
  let _ ← expect .leftBrace .leftBrace
  let lines ← bounded (braced (fields type))
  return lines.flatten

/-! ### Array lengths -/

/-- The tokens of an array length up to the bracket that ends it, and what follows the bracket. A
bracket or parenthesis that opens inside has to close first. -/
def lengthTokens (depth : Nat) : List Token → Option (List Token × List Token)
  | [] => none
  | t :: rest =>
    if t.kind = .rightBracket ∧ depth = 0 then some ([], rest)
    else
      let depth := match t.kind with
        | .leftBracket | .leftParen => depth + 1
        | .rightBracket | .rightParen => depth - 1
        | _ => depth
      (lengthTokens depth rest).map fun (tokens, rest) => (t :: tokens, rest)

/-- Reads an array length and the bracket behind it. The length is the text of its tokens. -/
def arrayLength : Parser String := fun tokens =>
  match lengthTokens 0 tokens with
  | none => .error ⟨none, .unexpectedEndInLength⟩
  | some (tokens, rest) =>
    let text := String.join (tokens.map Token.text)
    if text = "" ∨ text = "..." then wanted .arrayLength rest else .ok ⟨text, [], rest⟩

/-! ### Types -/

/-- Reads a type that is nested less than the given number of levels deep. -/
def typeWithin (scope : Scope) : Nat → Parser GoType
  | 0 => wanted .type
  | n + 1 => do
    match ← peek 0 with
    | some .identifier => scope.typeName
    | some .star =>
      skip
      return .pointer (← typeWithin scope n)
    | some .leftBracket =>
      skip
      if ← accept .rightBracket then
        return .slice (← typeWithin scope n)
      let length ← arrayLength
      return .array length (← typeWithin scope n)
    | some (.keyword .mapKw) =>
      skip
      let _ ← expect .leftBracket .leftBracket
      let key ← typeWithin scope n
      let _ ← expect .rightBracket .rightBracket
      return .map key (← typeWithin scope n)
    | some (.keyword .chanKw) =>
      skip
      let direction := if ← accept .arrow then .send else .both
      return .chan direction (← typeWithin scope n)
    | some .arrow =>
      skip
      let _ ← expect (.keyword .chanKw) .chanKeyword
      return .chan .receive (← typeWithin scope n)
    | some (.keyword .funcKw) =>
      skip
      return .func (← signature scope (typeWithin scope n))
    | some (.keyword .interfaceKw) =>
      skip
      return .interface (← interfaceBody scope (typeWithin scope n))
    | some (.keyword .structKw) =>
      skip
      return .struct (← structBody (typeWithin scope n))
    | some .leftParen =>
      skip
      let inner ← typeWithin scope n
      let _ ← expect .rightParen .rightParen
      return inner
    | _ => wanted .type

/-- Reads a type. -/
def typeExpr (scope : Scope) : Parser GoType :=
  bounded (typeWithin scope)

end Multicast.Syntax
