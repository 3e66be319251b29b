import Multicast.Source.Token
import Multicast.Text.Quoted

/-!
# Diagnostics

What can be wrong with a source file, and how it is told. A `Cause` says what is wrong; a
`Diagnostic` adds where.
-/

namespace Multicast.Source

/-- What a parser wanted to read when it met something else. -/
inductive Wanted
  | packageKeyword
  | name
  | semicolon
  | closingDelimiter
  | leftParen
  | rightParen
  | leftBracket
  | rightBracket
  | leftBrace
  | importPath
  | chanKeyword
  | type
  | arrayLength
  | commaOrParen
  | semicolonOrBrace
  | field
  deriving DecidableEq, Repr

/-- How a diagnostic names what was wanted. -/
def Wanted.text : Wanted → String
  | packageKeyword => "'package'"
  | name => "name"
  | semicolon => "';'"
  | closingDelimiter => "closing delimiter"
  | leftParen => "'('"
  | rightParen => "')'"
  | leftBracket => "'['"
  | rightBracket => "']'"
  | leftBrace => "'\x7b'"
  | importPath => "import path"
  | chanKeyword => "'chan'"
  | type => "type"
  | arrayLength => "array length"
  | commaOrParen => "',' or ')'"
  | semicolonOrBrace => "';' or '\x7d'"
  | field => "field name or embedded type"

/-- What is wrong with a source file. -/
inductive Cause
  /-- A block comment without an end. -/
  | openComment
  /-- A string literal without an end on its line. -/
  | openString
  /-- A raw string literal without an end. -/
  | openRawString
  /-- A rune literal without an end on its line. -/
  | openRune
  /-- A character that starts no token. -/
  | invalidCharacter (c : Char)
  /-- A token, or the end of the file, where something else was wanted. -/
  | expected (wanted : Wanted) (found : String)
  /-- The file ends inside parentheses. -/
  | unexpectedEnd
  /-- The file ends inside an array length. -/
  | unexpectedEndInLength
  /-- A package called `_`. -/
  | blankPackage
  /-- An import of the empty path. -/
  | emptyImportPath
  /-- An import after another declaration. -/
  | lateImport
  /-- Something at the top of the file that starts no declaration. -/
  | notADeclaration
  /-- A name that nothing declares. -/
  | undefined (name : String)
  /-- A name that more than one dot import could declare. -/
  | ambiguous (name : String)
  /-- A name that is declared, but not as a type. -/
  | notAType (name : String)
  /-- A name that is declared a second time. -/
  | redeclared (name : String)
  /-- `...` where it does not belong. -/
  | misplacedEllipsis
  /-- A parameter without a name in a list with names. -/
  | mixedParameters
  /-- Names without a type at the end of a list of parameters with types. -/
  | untypedParameters (name : String)
  /-- A generic type with type arguments. -/
  | instantiation
  /-- An element of an interface that restricts type arguments. -/
  | constraint
  deriving DecidableEq, Repr

namespace Cause

/-- The wording of a cause. -/
def message : Cause → String
  | openComment => "comment not terminated"
  | openString => "string literal not terminated"
  | openRawString => "raw string literal not terminated"
  | openRune => "rune literal not terminated"
  | invalidCharacter c => "invalid character " ++ Text.quoted c
  | expected wanted found => "expected " ++ wanted.text ++ ", found " ++ found
  | unexpectedEnd => "unexpected EOF"
  | unexpectedEndInLength => "unexpected EOF in array length"
  | blankPackage => "invalid package name _"
  | emptyImportPath => "invalid import path: empty"
  | lateImport => "imports must appear before other declarations"
  | notADeclaration => "non-declaration statement outside function body"
  | undefined name => "undefined: " ++ name
  | ambiguous name => "undefined: " ++ name ++ " (can't tell which dot import declares it)"
  | notAType name => name ++ " is not a type"
  | redeclared name => name ++ " redeclared in this block"
  | misplacedEllipsis => "can only use ... with final parameter in list"
  | mixedParameters => "mixed named and unnamed parameters"
  | untypedParameters name => "mixed named and unnamed parameters near " ++ name
  | instantiation => "generic type instantiation is not supported"
  | constraint => "type constraint elements are not supported"

/-- The causes that are no errors in the language but lie outside of the types described here. A
type declaration that fails with one of them is kept as a name without a type. -/
def isUnsupported : Cause → Bool
  | instantiation | constraint => true
  | _ => false

end Cause

/-- A cause and the place it was found at. -/
structure Diagnostic where
  file : String
  pos : Position
  cause : Cause
  deriving DecidableEq, Repr

/-- The wording of a diagnostic: file, line, column, cause. -/
def Diagnostic.message (d : Diagnostic) : String :=
  d.file ++ ":" ++ toString d.pos.line ++ ":" ++ toString d.pos.column ++ ": " ++ d.cause.message

end Multicast.Source
