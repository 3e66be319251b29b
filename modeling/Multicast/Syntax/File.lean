import Multicast.Package.Object
import Multicast.Syntax.TypeExpr

/-!
# Source files

A file is a package clause, imports, and declarations. Types are read in full. Of functions,
variables and constants only the names are read; the rest is skipped by counting delimiters, up to
the semicolon that ends the declaration.

A type that cannot be described does not spoil the file. Its declaration is kept as an unsupported
object: what was read of it is given back, and the declaration is skipped like a function body.
-/

namespace Multicast.Syntax

open Source Multicast.Syntax.Parser

/-- A declared object and the place of its name. -/
structure Declaration where
  object : Object
  pos : Position
  deriving BEq, Repr

/-- A file that was read. -/
structure File where
  name : String
  package : String
  imports : List Import
  declarations : List Declaration
  references : List Reference

/-! ### Ends of declarations -/

/-- Skips the tokens of a declaration, of which `depth` delimiters are open, up to the semicolon or
the unmatched delimiter that ends it. -/
def skipNested : Nat → List Token → Except Failure (List Token)
  | 0, [] => .ok []
  | _ + 1, [] => .error ⟨none, .expected .closingDelimiter "EOF"⟩
  | 0, t :: rest =>
    if t.kind = .semicolon ∨ t.kind.isClosing then .ok (t :: rest)
    else skipNested (if t.kind.isOpening then 1 else 0) rest
  | depth + 1, t :: rest =>
    if t.kind.isOpening then skipNested (depth + 2) rest
    else if t.kind.isClosing then skipNested depth rest
    else skipNested (depth + 1) rest

/-- Skips the rest of a declaration, but not the token that ends it. -/
def skipToEnd : Parser Unit := fun tokens => do
  return ⟨(), [], ← skipNested 0 tokens⟩

/-- Skips the rest of a declaration and the semicolon that ends it. -/
def skipDeclaration : Parser Unit := do
  skipToEnd
  let _ ← accept .semicolon

/-- Skips tokens behind an opening parenthesis up to the parenthesis that closes it. -/
def skipParens : Nat → List Token → Except Failure (List Token)
  | _, [] => .error ⟨none, .unexpectedEnd⟩
  | depth, t :: rest =>
    if t.kind = .leftParen then skipParens (depth + 1) rest
    else if t.kind = .rightParen then
      match depth with
      | 0 => .ok rest
      | depth + 1 => skipParens depth rest
    else skipParens depth rest

/-- Reads what ends a declaration. Inside a group the closing parenthesis may end it too, and so
may the end of the file. -/
def specEnd (grouped : Bool) : Parser Unit := do
  match ← peek 0 with
  | some .semicolon => skip
  | some .rightParen => unless grouped do wanted .semicolon
  | none => return
  | some _ => wanted .semicolon

/-! ### Groups -/

/-- Reads the specs of a group up to its closing parenthesis. -/
def groupRest {α : Type} (spec : Parser α) : Nat → Parser (List α)
  | 0 => wanted .rightParen
  | n + 1 => do
    skipSemicolons
    if ← accept .rightParen then return []
    if (← peek 0).isNone then wanted .rightParen
    let first ← spec
    let others ← groupRest spec n
    return first :: others

/-- Reads a spec, or specs in parentheses. The reader of a spec is told whether it stands in
parentheses. -/
def group {α : Type} (spec : Bool → Parser α) : Parser (List α) := do
  if ← accept .leftParen then
    let specs ← bounded (groupRest (spec true))
    specEnd false
    return specs
  let only ← spec false
  return [only]

/-! ### Package clause and imports -/

/-- Reads the package clause. -/
def packageClause : Parser String := do
  skipSemicolons
  let _ ← expect (.keyword .packageKw) .packageKeyword
  let package ← name
  if package.text = "_" then failAt package.pos .blankPackage
  specEnd false
  return package.text

/-- The path that a string literal holds. -/
def importedPath (literal : String) : String :=
  String.ofList (Text.strip (fun c => c = '"' || c = rawQuote) literal.toList)

/-- Reads the name in front of an import path, if there is one. -/
def importAlias : Parser (Option String) := fun tokens =>
  match tokens with
  | t :: rest =>
    if t.kind = .identifier ∨ t.kind = .dot then .ok ⟨some t.text, [], rest⟩
    else .ok ⟨none, [], tokens⟩
  | [] => .ok ⟨none, [], tokens⟩

/-- Reads an import. -/
def importSpec (grouped : Bool) : Parser Import := do
  let written ← importAlias
  let literal ← expect .string .importPath
  let path := importedPath literal.text
  if path = "" then failAt literal.pos .emptyImportPath
  specEnd grouped
  return ⟨written, .ofPath path⟩

/-- Reads the imports of a file. -/
def imports : Nat → Parser (List Import)
  | 0 => return []
  | n + 1 => do
    if ← accept (.keyword .importKw) then
      let first ← group importSpec
      let others ← imports n
      return first ++ others
    return []

/-! ### Declarations -/

/-- Whether the tokens behind a declared name begin type parameters, and not an array length. -/
def isGeneric (tokens : List Token) : Bool :=
  match tokens with
  | bracket :: parameter :: rest =>
    bracket.kind = .leftBracket && parameter.kind = .identifier &&
      rest.head?.map Token.kind != some .rightBracket
  | _ => false

/-- The reason kept for a generic declaration. -/
def genericReason : String :=
  "generic type declarations are not supported"

/-- Reads what is declared behind the name of a type. -/
def typeDefinition (scope : Scope) : Parser ObjectKind := do
  let isAlias ← accept .assign
  let type ← typeExpr scope
  return .type type isAlias

/-- Skips a declaration that cannot be described, for a reason. -/
def unsupported (reason : String) : Parser ObjectKind := do
  skipToEnd
  return .unsupported reason

/-- Reads what is declared behind the name of a type, or skips it if it cannot be described. -/
def typeKind (scope : Scope) : Parser ObjectKind := fun tokens =>
  if isGeneric tokens then unsupported genericReason tokens
  else match typeDefinition scope tokens with
    | .ok parsed => .ok parsed
    | .error e =>
      if e.cause.isUnsupported then unsupported e.cause.message tokens else .error e

/-- Reads a type declaration behind its keyword. -/
def typeSpec (scope : Scope) (grouped : Bool) : Parser Declaration := do
  let declared ← name
  let kind ← typeKind scope
  specEnd grouped
  return ⟨⟨declared.text, kind⟩, declared.pos⟩

/-- Reads the receiver of a method, and tells whether there is one. -/
def receiver : Parser Bool := fun tokens =>
  match tokens with
  | t :: rest =>
    if t.kind = .leftParen then do
      return ⟨true, [], ← skipParens 0 rest⟩
    else .ok ⟨false, [], tokens⟩
  | [] => .ok ⟨false, [], tokens⟩

/-- Reads a function declaration behind its keyword. Methods and `init` functions are not objects
of the package. -/
def funcDeclaration : Parser (List Declaration) := do
  let isMethod ← receiver
  let declared ← name
  skipDeclaration
  if isMethod || declared.text = "_" || declared.text = "init" then return []
  return [⟨⟨declared.text, .func⟩, declared.pos⟩]

/-- Reads declared variables or constants. -/
def valueSpec (kind : ObjectKind) : Parser (List Declaration) := do
  let declared ← names
  skipDeclaration
  return (declared.filter (·.text ≠ "_")).map fun t => ⟨⟨t.text, kind⟩, t.pos⟩

/-- Reads the declarations of a file up to its end. -/
def declarations (scope : Scope) : Nat → Parser (List Declaration)
  | 0 => return []
  | n + 1 => do
    match ← peek 0 with
    | none => return []
    | some .semicolon =>
      skip
      declarations scope n
    | some (.keyword .typeKw) =>
      skip
      let first ← group (typeSpec scope)
      return first ++ (← declarations scope n)
    | some (.keyword .funcKw) =>
      skip
      let first ← funcDeclaration
      return first ++ (← declarations scope n)
    | some (.keyword .varKw) =>
      skip
      let first ← group fun _ => valueSpec .var
      return first.flatten ++ (← declarations scope n)
    | some (.keyword .constKw) =>
      skip
      let first ← group fun _ => valueSpec .const
      return first.flatten ++ (← declarations scope n)
    | some (.keyword .importKw) => fail .lateImport
    | some _ => fail .notADeclaration

/-- What a file holds apart from its name and its references. -/
structure Contents where
  package : String
  imports : List Import
  declarations : List Declaration

/-- Reads a whole file of the package at a path. -/
def contents (path : String) : Parser Contents := do
  let package ← packageClause
  let imports ← bounded imports
  let declarations ← bounded (declarations ⟨⟨path, package⟩, imports⟩)
  return ⟨package, imports, declarations⟩

/-! ### Reading texts -/

/-- Runs a parser on a text. -/
def readText {α : Type} (p : Parser α) (file text : String) : Except Diagnostic (Parsed α) :=
  match tokenize text with
  | .error flaw => .error (flaw.inFile file)
  | .ok tokens =>
    match p tokens.list with
    | .error failure => .error ((failure.flaw tokens.stop).inFile file)
    | .ok parsed => .ok parsed

/-- The name that the package clause of a file gives. -/
def parsePackageName (file text : String) : Except Diagnostic String := do
  return (← readText packageClause file text).value

/-- Reads a file of the package at a path. -/
def parseFile (file text path : String) : Except Diagnostic File := do
  let parsed ← readText (contents path) file text
  let ⟨package, imports, declarations⟩ := parsed.value
  return ⟨file, package, imports, declarations, parsed.references⟩

end Multicast.Syntax
