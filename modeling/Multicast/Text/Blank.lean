import Multicast.Text.Ranges

/-!
# Blanks

The code points with the Unicode property *White_Space*. Between the tokens of a source text any
of them separates and none of them means anything, the newline apart.
-/

namespace Multicast.Text

/-- The blank code points, in ascending order. -/
def blankRanges : Ranges := [
  (0x9, 0xd), (0x20, 0x20), (0x85, 0x85), (0xa0, 0xa0), (0x1680, 0x1680), (0x2000, 0x200a),
  (0x2028, 0x2029), (0x202f, 0x202f), (0x205f, 0x205f), (0x3000, 0x3000)]

/-- A character that has the property *White_Space*. -/
def isBlank (c : Char) : Bool :=
  blankRanges.covers c

end Multicast.Text
