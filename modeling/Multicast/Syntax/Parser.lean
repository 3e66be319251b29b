import Multicast.Source.Lexing
import Multicast.Types.GoType

/-!
# Parsers

A parser reads tokens from the front of a list and leaves the rest, or it fails. Besides its value
it reports the names it has come across that the file does not resolve by itself, in the order in
which they are settled; a failure reports none.

A failure is found at a token or at the end of the file. The end has no token, so it is the caller
who knows its place; apart from this, parsers look at kinds and texts of tokens and never at places.
-/

namespace Multicast.Syntax

open Source

/-- A type name without a package in front of it, which the package or a dot import has to
declare. -/
structure Reference where
  name : String
  pos : Position
  deriving DecidableEq, Repr

/-- Why a parser failed, and at which token. Without a place it failed at the end of the file. -/
structure Failure where
  pos : Option Position
  cause : Cause
  deriving DecidableEq, Repr

/-- The flaw that a failure tells of, in a file that ends at `stop`. -/
def Failure.flaw (stop : Position) (f : Failure) : Flaw :=
  ⟨f.pos.getD stop, f.cause⟩

/-- What a parser has read: its value, the open references, and the tokens it leaves. -/
structure Parsed (α : Type) where
  value : α
  references : List Reference
  rest : List Token

/-- Reads from the front of a list of tokens. -/
def Parser (α : Type) : Type :=
  List Token → Except Failure (Parsed α)

namespace Parser

variable {α β : Type}

/-- Runs a parser. -/
def run (p : Parser α) (tokens : List Token) : Except Failure (Parsed α) :=
  p tokens

/-- Reads nothing. -/
def done (a : α) : Parser α := fun tokens =>
  .ok ⟨a, [], tokens⟩

/-- Reads with `p`, and then what `f` makes of its value. -/
def andThen (p : Parser α) (f : α → Parser β) : Parser β := fun tokens =>
  match p tokens with
  | .error e => .error e
  | .ok first =>
    match f first.value first.rest with
    | .error e => .error e
    | .ok second => .ok ⟨second.value, first.references ++ second.references, second.rest⟩

instance : Monad Parser where
  pure := done
  bind := andThen

/-! ### Failing -/

/-- Fails at the next token. -/
def fail (cause : Cause) : Parser α := fun tokens =>
  .error ⟨tokens.head?.map Token.pos, cause⟩

/-- Fails at a place that was read before. -/
def failAt (pos : Option Position) (cause : Cause) : Parser α := fun _ =>
  .error ⟨pos, cause⟩

/-- Fails at the next token because it is not what was wanted. -/
def wanted (what : Wanted) : Parser α := fun tokens =>
  .error ⟨tokens.head?.map Token.pos, .expected what (tokens.head?.elim "EOF" Token.shown)⟩

/-! ### Looking ahead and reading on -/

/-- The kind of the token behind the next `n`, if there is one. -/
def peek (n : Nat) : Parser (Option Kind) := fun tokens =>
  .ok ⟨tokens[n]?.map Token.kind, [], tokens⟩

/-- Whether the next token is of a kind. -/
def at? (kind : Kind) : Parser Bool := do
  return (← peek 0) == some kind

/-- Reads the next token, whatever it is. At the end of the file nothing is read. -/
def skip : Parser Unit := fun tokens =>
  .ok ⟨(), [], tokens.tail⟩

/-- The place of the next token, for a failure that is found later. -/
def here : Parser (Option Position) := fun tokens =>
  .ok ⟨tokens.head?.map Token.pos, [], tokens⟩

/-- Reads the next token if it is of a kind, and tells whether it did. -/
def accept (kind : Kind) : Parser Bool := do
  if ← at? kind then
    skip
    return true
  return false

/-- Reads a token of a kind. -/
def expect (kind : Kind) (what : Wanted) : Parser Token := fun tokens =>
  match tokens with
  | t :: rest => if t.kind = kind then .ok ⟨t, [], rest⟩ else wanted what tokens
  | [] => wanted what tokens

/-- Reads a name. -/
def name : Parser Token :=
  expect .identifier .name

/-- Reads all semicolons that come next. -/
def skipSemicolons : Parser Unit := fun tokens =>
  .ok ⟨(), [], tokens.dropWhile (·.kind = .semicolon)⟩

/-- Reports an open reference. -/
def refer (reference : Reference) : Parser Unit := fun tokens =>
  .ok ⟨(), [reference], tokens⟩

/-! ### Repetition

A repetition runs on a budget of rounds. Every round reads a token, so the number of tokens is
enough, and `bounded` supplies it. -/

/-- Runs a parser on a budget that exceeds the number of tokens. -/
def bounded (p : Nat → Parser α) : Parser α := fun tokens =>
  p (tokens.length + 1) tokens

/-- Names between commas, at least one. -/
def names : List Token → Except Failure (Parsed (List Token))
  | t :: comma :: rest =>
    if t.kind = .identifier then
      if comma.kind = .comma then do
        let more ← names rest
        return { more with value := t :: more.value }
      else .ok ⟨[t], [], comma :: rest⟩
    else wanted .name (t :: comma :: rest)
  | [t] => if t.kind = .identifier then .ok ⟨[t], [], []⟩ else wanted .name [t]
  | [] => wanted .name []

/-- What stands between an opening brace, which has been read, and the closing brace: items with
semicolons between them. -/
def braced (item : Parser α) : Nat → Parser (List α)
  | 0 => wanted .semicolonOrBrace
  | n + 1 => do
    skipSemicolons
    if ← accept .rightBrace then return []
    let first ← item
    unless ← at? .rightBrace do
      let _ ← expect .semicolon .semicolonOrBrace
    let others ← braced item n
    return first :: others

/-! ### Running the primitives -/

theorem run_bind (p : Parser α) (f : α → Parser β) (tokens : List Token) :
    (p >>= f).run tokens =
      match p.run tokens with
      | .error e => .error e
      | .ok first =>
        match (f first.value).run first.rest with
        | .error e => .error e
        | .ok second =>
          .ok ⟨second.value, first.references ++ second.references, second.rest⟩ := rfl

end Parser

end Multicast.Syntax
