/-!
# Positions in a source text

A position counts lines and columns from one. A column is a code point: a tab, a letter with an
accent and an ideograph are one column each.
-/

namespace Multicast.Source

/-- A place in a source text. -/
structure Position where
  line : Nat
  column : Nat
  deriving DecidableEq, Repr, Inhabited

namespace Position

/-- The place of the first character. -/
def start : Position := ⟨1, 1⟩

/-- The place after a character at `p`. -/
def next (p : Position) (c : Char) : Position :=
  if c = '\n' then ⟨p.line + 1, 1⟩ else ⟨p.line, p.column + 1⟩

/-- The place after a text that begins at `p`. -/
def past (p : Position) (text : List Char) : Position :=
  text.foldl next p

@[simp] theorem past_nil (p : Position) : p.past [] = p := rfl

@[simp] theorem past_cons (p : Position) (c : Char) (text : List Char) :
    p.past (c :: text) = (p.next c).past text := rfl

theorem past_append (p : Position) (s t : List Char) : p.past (s ++ t) = (p.past s).past t :=
  List.foldl_append

end Position

end Multicast.Source
