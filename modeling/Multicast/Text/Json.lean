/-!
# JSON texts

What is needed of JSON to write a record of texts, flags and lists of texts, with an indentation of
two blanks a level.
-/

namespace Multicast.Text.Json

/-- The value of a field. -/
inductive Value
  | text (value : String)
  | flag (value : Bool)
  | texts (values : List String)
  deriving DecidableEq, Repr

/-- A number below 16 as a hexadecimal digit. -/
def hexDigit (n : Nat) : Char :=
  Nat.digitChar n

/-- A character inside quotes. The quote, the backslash and the control characters are escaped. -/
def escaped (c : Char) : List Char :=
  if c = '"' ∨ c = '\\' then ['\\', c]
  else if c = '\x08' then ['\\', 'b']
  else if c = '\x0c' then ['\\', 'f']
  else if c = '\n' then ['\\', 'n']
  else if c = '\r' then ['\\', 'r']
  else if c = '\t' then ['\\', 't']
  else if c.toNat < 0x20 then
    ['\\', 'u', '0', '0', hexDigit (c.toNat / 16), hexDigit (c.toNat % 16)]
  else [c]

/-- A text in quotes. -/
def quoted (text : String) : String :=
  String.ofList ('"' :: text.toList.flatMap escaped ++ ['"'])

/-- A value one level deep. -/
def Value.written : Value → String
  | text value => quoted value
  | flag value => if value then "true" else "false"
  | texts [] => "[]"
  | texts values => "[\n    " ++ ",\n    ".intercalate (values.map quoted) ++ "\n  ]"

/-- An object with a field on each line. -/
def object (fields : List (String × Value)) : String :=
  let lines := fields.map fun (name, value) => "  " ++ quoted name ++ ": " ++ value.written
  "\x7b\n" ++ ",\n".intercalate lines ++ "\n\x7d"

end Multicast.Text.Json
