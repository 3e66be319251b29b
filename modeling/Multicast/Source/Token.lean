import Multicast.Source.Position

/-!
# Tokens

A token is a word of the source language: a name, a literal, a keyword, or an operator. Only the
operators that occur in declarations have a kind of their own; all others share one, since a
declaration that is read in full never contains them.

A line may end a statement without a semicolon being written. The kinds after which it does are
those of `Kind.endsStatement`; together with the two operators of `Token.endsStatement` they decide
where `Multicast.Source.Lexing` adds a semicolon.
-/

namespace Multicast.Source

/-- The reserved words of the language. -/
inductive Keyword
  | breakKw | caseKw | chanKw | constKw | continueKw | defaultKw | deferKw | elseKw
  | fallthroughKw | forKw | funcKw | goKw | gotoKw | ifKw | importKw | interfaceKw | mapKw
  | packageKw | rangeKw | returnKw | selectKw | structKw | switchKw | typeKw | varKw
  deriving DecidableEq, Repr

namespace Keyword

/-- How a keyword is written. -/
def text : Keyword → String
  | breakKw => "break"
  | caseKw => "case"
  | chanKw => "chan"
  | constKw => "const"
  | continueKw => "continue"
  | defaultKw => "default"
  | deferKw => "defer"
  | elseKw => "else"
  | fallthroughKw => "fallthrough"
  | forKw => "for"
  | funcKw => "func"
  | goKw => "go"
  | gotoKw => "goto"
  | ifKw => "if"
  | importKw => "import"
  | interfaceKw => "interface"
  | mapKw => "map"
  | packageKw => "package"
  | rangeKw => "range"
  | returnKw => "return"
  | selectKw => "select"
  | structKw => "struct"
  | switchKw => "switch"
  | typeKw => "type"
  | varKw => "var"

/-- Every keyword, in alphabetic order. -/
def all : List Keyword :=
  [breakKw, caseKw, chanKw, constKw, continueKw, defaultKw, deferKw, elseKw, fallthroughKw,
    forKw, funcKw, goKw, gotoKw, ifKw, importKw, interfaceKw, mapKw, packageKw, rangeKw, returnKw,
    selectKw, structKw, switchKw, typeKw, varKw]

theorem mem_all (k : Keyword) : k ∈ all := by
  cases k <;> simp [all]

/-- The keyword written as `word`, if there is one. -/
def ofText? (word : String) : Option Keyword :=
  all.find? (·.text = word)

theorem text_of_ofText? {word : String} {k : Keyword} (h : ofText? word = some k) :
    k.text = word := by
  simpa using List.find?_some h

end Keyword

/-- What sort of word a token is. -/
inductive Kind
  | identifier
  | number
  | rune
  | string
  | keyword (k : Keyword)
  | leftParen
  | rightParen
  | leftBracket
  | rightBracket
  | leftBrace
  | rightBrace
  | comma
  | semicolon
  | dot
  | ellipsis
  | star
  | arrow
  | assign
  | tilde
  | pipe
  | operator
  deriving DecidableEq, Repr

namespace Kind

/-- The kinds after which the end of a line ends a statement. -/
def endsStatement : Kind → Bool
  | identifier | number | rune | string => true
  | keyword .breakKw | keyword .continueKw | keyword .fallthroughKw | keyword .returnKw => true
  | rightParen | rightBracket | rightBrace => true
  | _ => false

/-- The kinds that open a nested stretch of tokens. -/
def isOpening : Kind → Bool
  | leftParen | leftBracket | leftBrace => true
  | _ => false

/-- The kinds that close a nested stretch of tokens. -/
def isClosing : Kind → Bool
  | rightParen | rightBracket | rightBrace => true
  | _ => false

/-- The kind of a written word: a keyword, or a name. -/
def ofWord (word : String) : Kind :=
  match Keyword.ofText? word with
  | some k => keyword k
  | none => identifier

end Kind

/-- The operators, each before those it begins with, so that the first that fits is the longest
that fits. -/
def operators : List (List Char × Kind) := [
  (['<', '<', '='], .operator), (['>', '>', '='], .operator), (['&', '^', '='], .operator),
  (['.', '.', '.'], .ellipsis),
  (['&', '&'], .operator), (['|', '|'], .operator), (['<', '-'], .arrow),
  (['+', '+'], .operator), (['-', '-'], .operator), (['=', '='], .operator),
  (['!', '='], .operator), (['<', '='], .operator), (['>', '='], .operator),
  ([':', '='], .operator), (['+', '='], .operator), (['-', '='], .operator),
  (['*', '='], .operator), (['/', '='], .operator), (['%', '='], .operator),
  (['&', '='], .operator), (['|', '='], .operator), (['^', '='], .operator),
  (['<', '<'], .operator), (['>', '>'], .operator), (['&', '^'], .operator),
  (['+'], .operator), (['-'], .operator), (['*'], .star), (['/'], .operator),
  (['%'], .operator), (['&'], .operator), (['|'], .pipe), (['^'], .operator),
  (['<'], .operator), (['>'], .operator), (['='], .assign), (['!'], .operator),
  (['('], .leftParen), ([')'], .rightParen), (['['], .leftBracket), ([']'], .rightBracket),
  (['\x7b'], .leftBrace), (['\x7d'], .rightBrace), ([','], .comma), ([';'], .semicolon),
  (['.'], .dot), ([':'], .operator), (['~'], .tilde)]

/-- The longest operator that a text begins with. -/
def operator? (text : List Char) : Option (List Char × Kind) :=
  operators.find? fun op => op.1.isPrefixOf text

/-- A token: its kind, how it is written, and where it begins. -/
structure Token where
  kind : Kind
  text : String
  pos : Position
  deriving DecidableEq, Repr

namespace Token

/-- The semicolon that the end of a line stands for. Its text is the newline. -/
def lineEnd (p : Position) : Token := ⟨.semicolon, "\n", p⟩

/-- Whether the end of a line after this token ends a statement. -/
def endsStatement (t : Token) : Bool :=
  t.kind.endsStatement || t.text = "++" || t.text = "--"

/-- How a diagnostic names a token. -/
def shown (t : Token) : String :=
  if t.kind = .semicolon ∧ t.text = "\n" then "newline" else t.text

end Token

end Multicast.Source
