import Multicast.Source.Piece

/-!
# Tokens with line ends

The tokens of a text are its lexemes, together with a semicolon for every line end that ends a
statement. `Lexing.ofPieces` walks along the pieces of a text and keeps two things: the place it
has come to, and whether a line that ended here would end a statement. A line ends at a newline
between tokens, inside a block comment, or at the end of the text.

Reading does not stop at a literal without an end: a `Lexing` holds every token and every flaw in
the order of the text. `Lexing.tokens` is the plain answer, all tokens or the first flaw, and
`Lexing.take` the answer for a reader who asks for one token after another and goes on past flaws.
-/

namespace Multicast.Source

/-- A cause and the place it was found at, in a file that is not named. -/
structure Flaw where
  pos : Position
  cause : Cause
  deriving DecidableEq, Repr

/-- A flaw as it is told of a file. -/
def Flaw.inFile (file : String) (flaw : Flaw) : Diagnostic :=
  ⟨file, flaw.pos, flaw.cause⟩

/-- The tokens of a text and the place where the text ends. -/
structure Tokens where
  list : List Token
  stop : Position
  deriving DecidableEq, Repr

/-- A text as it is read: tokens and flaws in order, and then either the end of the text or a
character at which reading stays. -/
structure Lexing where
  items : List (Except Flaw Token)
  last : Except Flaw Position

namespace Lexing

/-- The same reading with one more item at its beginning. -/
def push (item : Except Flaw Token) (l : Lexing) : Lexing :=
  { l with items := item :: l.items }

/-- The reading of a text that ends at `p` but for the characters `left`, the first of which
cannot be read. -/
def atEnd (left : List Char) (p : Position) (ends : Bool) : Lexing :=
  match left with
  | c :: _ => ⟨[], .error ⟨p, .invalidCharacter c⟩⟩
  | [] => if ends then ⟨[.ok (.lineEnd p)], .ok p⟩ else ⟨[], .ok p⟩

/-- The reading of the pieces that begin at `p`, and of what is left after them. A line that ends
at `p` ends a statement if `ends` holds. -/
def ofPieces (left : List Char) : Position → Bool → List Piece → Lexing
  | p, ends, [] => atEnd left p ends
  | p, ends, .newline :: ps =>
    if ends then (ofPieces left (p.next '\n') false ps).push (.ok (.lineEnd p))
    else ofPieces left (p.next '\n') ends ps
  | p, ends, .blank c :: ps => ofPieces left (p.next c) ends ps
  | p, ends, .lineComment t :: ps => ofPieces left (p.past t) ends ps
  | p, ends, .blockComment t :: ps =>
    if ends && t.contains '\n' then
      (ofPieces left (p.past t) false ps).push (.ok (.lineEnd (p.past t)))
    else ofPieces left (p.past t) ends ps
  | p, _, .lexeme kind t :: ps =>
    let token : Token := ⟨kind, String.ofList t, p⟩
    (ofPieces left (p.past t) token.endsStatement ps).push (.ok token)
  | p, ends, .broken cause t :: ps =>
    (ofPieces left (p.past t) ends ps).push (.error ⟨p, cause⟩)

/-- The reading of a text. -/
def ofText (text : String) : Lexing :=
  let (pieces, left) := split text.toList
  ofPieces left .start false pieces

/-- All tokens of a text, or its first flaw. -/
def tokens (l : Lexing) : Except Flaw Tokens := do
  let list ← l.items.mapM id
  let stop ← l.last
  pure ⟨list, stop⟩

/-- What a reader who asks for a token may be given. -/
inductive Reply
  /-- A token. -/
  | token (t : Token)
  /-- A flaw of the text. -/
  | flaw (f : Flaw)
  /-- The end of the text. -/
  | stop (p : Position)
  deriving DecidableEq, Repr

/-- What a reader is given who asks for a token `n` times: the items in order, and from then on the
end of the text or the character that cannot be read, again and again. -/
def take (l : Lexing) (n : Nat) : List Reply :=
  let reply : Except Flaw Token → Reply
    | .ok t => .token t
    | .error f => .flaw f
  let last : Reply := match l.last with
    | .ok p => .stop p
    | .error f => .flaw f
  (l.items.take n).map reply ++ List.replicate (n - l.items.length) last

end Lexing

/-- All tokens of a text, or its first flaw. -/
def tokenize (text : String) : Except Flaw Tokens :=
  (Lexing.ofText text).tokens

end Multicast.Source
