/-!
# Ranges of code points

A class of characters is given by a table: a list of closed ranges of code points. The tables of
this library are the ones the Unicode character database defines, one module for each property.
-/

namespace Multicast.Text

/-- A class of characters, as closed ranges of code points. -/
abbrev Ranges := List (Nat × Nat)

/-- A character is in the class if one of the ranges holds its code point. -/
def Ranges.covers (ranges : Ranges) (c : Char) : Bool :=
  ranges.any fun range => range.1 ≤ c.toNat && c.toNat ≤ range.2

end Multicast.Text
