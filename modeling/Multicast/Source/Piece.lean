import Multicast.Source.Diagnostic
import Multicast.Text.Blank
import Multicast.Text.Letter
import Multicast.Text.Numeral

/-!
# The pieces of a source text

Before it is read as tokens, a source text is cut into pieces: tokens, comments, and the single
blanks and newlines between them. Nothing is lost by it. `Piece.next_text` says that the first
piece and what follows it make up the text, and `split_text` says so of all pieces; where a piece
begins therefore follows from the pieces before it, and no reader below keeps track of places.

A literal or comment without an end is a piece as well, so that the text after it can still be
cut. Only a character that starts no piece stops the cutting.
-/

namespace Multicast.Source

open Text (isBlank isLetter isNumeral)

/-- A character that continues a name. -/
def isNameChar (c : Char) : Bool :=
  isLetter c || isNumeral c || c = '_'

/-- A stretch of source text. -/
inductive Piece
  /-- The end of a line. -/
  | newline
  /-- A blank other than the newline. -/
  | blank (c : Char)
  /-- A comment up to the end of its line. -/
  | lineComment (text : List Char)
  /-- A comment with its delimiters. -/
  | blockComment (text : List Char)
  /-- A token. -/
  | lexeme (kind : Kind) (text : List Char)
  /-- A literal or comment without an end, as far as it was read. -/
  | broken (cause : Cause) (text : List Char)
  deriving DecidableEq, Repr

namespace Piece

/-- The text of a piece. -/
@[simp] def text : Piece → List Char
  | newline => ['\n']
  | blank c => [c]
  | lineComment t => t
  | blockComment t => t
  | lexeme _ t => t
  | broken _ t => t

end Piece

/-! ### Texts with an end of their own -/

/-- What the search for an end found: whether it is there, the text up to and with it, and what
follows. -/
structure Ending where
  found : Bool
  text : List Char
  rest : List Char
  deriving DecidableEq, Repr

namespace Ending

/-- The same end, searched for from one character earlier. -/
def push (c : Char) (e : Ending) : Ending :=
  { e with text := c :: e.text }

/-- The piece that starts with `opening` and goes on to the end. -/
def piece (opening : List Char) (whole : List Char → Piece) (cause : Cause) (e : Ending) :
    Piece × List Char :=
  if e.found then (whole (opening ++ e.text), e.rest)
  else (.broken cause (opening ++ e.text), e.rest)

@[simp] theorem text_push (c : Char) (e : Ending) : (e.push c).text = c :: e.text := rfl

@[simp] theorem rest_push (c : Char) (e : Ending) : (e.push c).rest = e.rest := rfl

theorem piece_text (opening : List Char) {whole : List Char → Piece}
    (hwhole : ∀ t, (whole t).text = t) (cause : Cause) (e : Ending) :
    (e.piece opening whole cause).1.text ++ (e.piece opening whole cause).2 =
      opening ++ (e.text ++ e.rest) := by
  unfold piece
  split
  · rw [hwhole, List.append_assoc]
  · simp

end Ending

/-- Searches for the end of a block comment. -/
def commentEnd : List Char → Ending
  | [] => ⟨false, [], []⟩
  | '*' :: '/' :: cs => ⟨true, ['*', '/'], cs⟩
  | c :: cs => (commentEnd cs).push c

/-- Searches for the quote that ends a string or rune literal. A backslash hides the character
after it, and an end of line that is not hidden ends the search. -/
def literalEnd (quote : Char) : List Char → Ending
  | [] => ⟨false, [], []⟩
  | c :: cs =>
    if c = quote then ⟨true, [c], cs⟩
    else if c = '\n' then ⟨false, [], c :: cs⟩
    else if c = '\\' then
      match cs with
      | [] => ⟨false, [c], []⟩
      | d :: ds => ((literalEnd quote ds).push d).push c
    else (literalEnd quote cs).push c

/-- The quote of raw string literals. -/
def rawQuote : Char := '\x60'

/-- Searches for the quote that ends a raw string literal. -/
def rawEnd : List Char → Ending
  | [] => ⟨false, [], []⟩
  | c :: cs => if c = rawQuote then ⟨true, [c], cs⟩ else (rawEnd cs).push c

theorem commentEnd_text (cs : List Char) : (commentEnd cs).text ++ (commentEnd cs).rest = cs := by
  fun_induction commentEnd cs <;> simp_all

theorem literalEnd_text (quote : Char) (cs : List Char) :
    (literalEnd quote cs).text ++ (literalEnd quote cs).rest = cs := by
  fun_induction literalEnd quote cs <;> simp_all

theorem rawEnd_text (cs : List Char) : (rawEnd cs).text ++ (rawEnd cs).rest = cs := by
  fun_induction rawEnd cs <;> simp_all

/-! ### Names, numbers and operators -/

/-- Whether a sign after `last` belongs to the number that `last` ends: after the exponent mark of
a decimal or of a hexadecimal number. -/
def isExponentMark (hex : Bool) (last : Char) : Bool :=
  ((last = 'e' || last = 'E') && !hex) || last = 'p' || last = 'P'

/-- Whether `c` continues a number that ends in `last` and has, or has not, an `x` in it. -/
def continuesNumber (hex : Bool) (last c : Char) : Bool :=
  isNameChar c || c = '.' || ((c = '+' || c = '-') && isExponentMark hex last)

/-- What continues a number, and what follows the number. -/
def numberRest (hex : Bool) (last : Char) : List Char → List Char × List Char
  | [] => ([], [])
  | c :: cs =>
    if continuesNumber hex last c then
      let (text, rest) := numberRest (hex || c = 'x' || c = 'X') c cs
      (c :: text, rest)
    else ([], c :: cs)

theorem numberRest_text (hex : Bool) (last : Char) (cs : List Char) :
    (numberRest hex last cs).1 ++ (numberRest hex last cs).2 = cs := by
  fun_induction numberRest hex last cs <;> simp_all

/-- Whether a number starts here: with a digit, or with a dot before a digit. -/
def startsNumber (c : Char) (cs : List Char) : Bool :=
  c.isDigit || (c = '.' && cs.head?.any Char.isDigit)

theorem operator?_text {text op : List Char} {kind : Kind} (h : operator? text = some (op, kind)) :
    op ++ text.drop op.length = text := by
  have := List.find?_some h
  obtain ⟨rest, rfl⟩ := List.isPrefixOf_iff_prefix.1 this
  simp

theorem operator?_ne_nil {text op : List Char} {kind : Kind}
    (h : operator? text = some (op, kind)) : op ≠ [] := by
  have hmem := List.mem_of_find?_eq_some h
  rintro rfl
  simp [operators] at hmem

/-! ### The first piece -/

/-- The first piece of a text that starts with `c`, and what follows it. -/
def Piece.next (c : Char) (cs : List Char) : Option (Piece × List Char) :=
  if c = '\n' then some (.newline, cs)
  else if isBlank c then some (.blank c, cs)
  else if c = '/' && cs.head? = some '/' then
    some (.lineComment (c :: cs.takeWhile (· ≠ '\n')), cs.dropWhile (· ≠ '\n'))
  else if c = '/' && cs.head? = some '*' then
    some ((commentEnd cs.tail).piece [c, '*'] .blockComment .openComment)
  else if isLetter c || c = '_' then
    let word := c :: cs.takeWhile isNameChar
    some (.lexeme (.ofWord (String.ofList word)) word, cs.dropWhile isNameChar)
  else if startsNumber c cs then
    let (text, rest) := numberRest false c cs
    some (.lexeme .number (c :: text), rest)
  else if c = '"' then some ((literalEnd c cs).piece [c] (.lexeme .string) .openString)
  else if c = rawQuote then some ((rawEnd cs).piece [c] (.lexeme .string) .openRawString)
  else if c = '\'' then some ((literalEnd c cs).piece [c] (.lexeme .rune) .openRune)
  else (operator? (c :: cs)).map fun op => (.lexeme op.2 op.1, (c :: cs).drop op.1.length)

/-- **A piece is cut off and nothing else**: it and what follows it make up the text. -/
theorem Piece.next_text {c : Char} {cs rest : List Char} {piece : Piece}
    (h : Piece.next c cs = some (piece, rest)) : piece.text ++ rest = c :: cs := by
  have cut {p : Piece × List Char} (hp : some p = some (piece, rest))
      (ht : p.1.text ++ p.2 = c :: cs) : piece.text ++ rest = c :: cs := by
    obtain rfl := Option.some.inj hp
    exact ht
  unfold Piece.next at h
  split at h
  · exact cut h (by simp [*])
  split at h
  · exact cut h (by simp)
  split at h
  · exact cut h (by simp)
  split at h
  next hstar =>
    have hcs : '*' :: cs.tail = cs := by
      cases cs <;> simp_all
    exact cut h (by rw [Ending.piece_text _ (fun _ => rfl), commentEnd_text]; simp [hcs])
  split at h
  · exact cut h (by simp)
  split at h
  · exact cut h (by simp [numberRest_text])
  split at h
  · exact cut h (by rw [Ending.piece_text _ (fun _ => rfl), literalEnd_text]; rfl)
  split at h
  · exact cut h (by rw [Ending.piece_text _ (fun _ => rfl), rawEnd_text]; rfl)
  split at h
  · exact cut h (by rw [Ending.piece_text _ (fun _ => rfl), literalEnd_text]; rfl)
  · obtain ⟨op, hop, heq⟩ := Option.map_eq_some_iff.1 h
    exact cut (congrArg some heq) (operator?_text hop)

/-- A piece is not empty: what follows it is shorter than the text. -/
theorem Piece.length_next_lt {c : Char} {cs rest : List Char} {piece : Piece}
    (h : Piece.next c cs = some (piece, rest)) : rest.length < (c :: cs).length := by
  have htext := congrArg List.length (Piece.next_text h)
  rw [List.length_append] at htext
  have hpos : 0 < piece.text.length := by
    have cut {p : Piece × List Char} (hp : some p = some (piece, rest))
        (ht : p.1.text ≠ []) : 0 < piece.text.length := by
      obtain rfl := Option.some.inj hp
      exact List.length_pos_iff.2 ht
    have ending (opening : List Char) {whole : List Char → Piece}
        (hwhole : ∀ t, (whole t).text = t) (cause : Cause) (e : Ending) (hne : opening ≠ []) :
        (e.piece opening whole cause).1.text ≠ [] := by
      unfold Ending.piece
      split
      · rw [hwhole]
        simp [hne]
      · simp [hne]
    unfold Piece.next at h
    split at h
    · exact cut h (by simp)
    split at h
    · exact cut h (by simp)
    split at h
    · exact cut h (by simp)
    split at h
    · exact cut h (ending _ (fun _ => rfl) _ _ (by simp))
    split at h
    · exact cut h (by simp)
    split at h
    · exact cut h (by simp)
    split at h
    · exact cut h (ending _ (fun _ => rfl) _ _ (by simp))
    split at h
    · exact cut h (ending _ (fun _ => rfl) _ _ (by simp))
    split at h
    · exact cut h (ending _ (fun _ => rfl) _ _ (by simp))
    · obtain ⟨op, hop, heq⟩ := Option.map_eq_some_iff.1 h
      exact cut (congrArg some heq) (operator?_ne_nil hop)
  omega

/-! ### All pieces -/

/-- The pieces of a text up to the first character that starts none, and what is left from
there. -/
def split : List Char → List Piece × List Char
  | [] => ([], [])
  | c :: cs =>
    match _h : Piece.next c cs with
    | none => ([], c :: cs)
    | some (piece, rest) =>
      let (pieces, left) := split rest
      (piece :: pieces, left)
termination_by text => text.length
decreasing_by exact Piece.length_next_lt ‹_›

theorem split_cons_none {c : Char} {cs : List Char} (h : Piece.next c cs = none) :
    split (c :: cs) = ([], c :: cs) := by
  rw [split]
  split <;> simp_all

theorem split_cons_some {c : Char} {cs rest : List Char} {piece : Piece}
    (h : Piece.next c cs = some (piece, rest)) :
    split (c :: cs) = (piece :: (split rest).1, (split rest).2) := by
  rw [split]
  split <;> simp_all

/-- **Cutting loses nothing**: the pieces and what is left make up the text. -/
theorem split_text (text : List Char) :
    (split text).1.flatMap Piece.text ++ (split text).2 = text := by
  fun_induction split text with
  | case1 => rfl
  | case2 => rfl
  | case3 c cs piece rest h pieces left hsplit ih =>
    rw [hsplit] at ih
    simp only [List.flatMap_cons, List.append_assoc]
    rw [ih, Piece.next_text h]

end Multicast.Source
