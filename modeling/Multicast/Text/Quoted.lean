import Multicast.Text.Extender
import Multicast.Text.Hidden

/-!
# A character between quotes

Diagnostics show a single character between apostrophes. A character that would be invisible
there, or would attach to the opening quote, is written by its number; so are the few that have an
escape of their own.
-/

namespace Multicast.Text

/-- The hexadecimal digits of a number, in lower case and without leading zeros. -/
def hexDigits (n : Nat) : List Char :=
  Nat.toDigits 16 n

/-- A character as it is written between apostrophes. -/
def escaped (c : Char) : List Char :=
  if c = '\x00' then ['\\', '0']
  else if c = '\t' then ['\\', 't']
  else if c = '\r' then ['\\', 'r']
  else if c = '\n' then ['\\', 'n']
  else if c = '\'' ∨ c = '\\' then ['\\', c]
  else if isExtender c || isHidden c then ['\\', 'u', '\x7b'] ++ hexDigits c.toNat ++ ['\x7d']
  else [c]

/-- A character between apostrophes. -/
def quoted (c : Char) : String :=
  String.ofList ('\'' :: escaped c ++ ['\''])

end Multicast.Text
