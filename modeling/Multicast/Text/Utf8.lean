/-!
# Reading bytes as text

Bytes that come from another program need not be well-formed UTF-8. `decode` reads them all the
same: each longest run of bytes that begins a character without completing one is replaced by a
single replacement character. Where such bytes are to be refused instead, `String.fromUTF8?` reads
them, and text and its bytes stand for each other.
-/

namespace Multicast.Text.Utf8

/-- Stands for bytes that are not a character. -/
def replacement : Char := '\ufffd'

/-- The bytes from `lo` to `hi`. -/
def between (lo hi : Nat) (b : UInt8) : Bool :=
  lo ≤ b.toNat && b.toNat ≤ hi

/-- A byte that continues a character. -/
def continues (b : UInt8) : Bool :=
  between 0x80 0xbf b

/-- How many bytes follow a lead byte, and which second byte is allowed after it. Lead bytes of
characters that need fewer bytes, of surrogates, and of numbers above the last code point are
excluded here. -/
def lead? (b : UInt8) : Option (Nat × (UInt8 → Bool)) :=
  if between 0xc2 0xdf b then some (1, continues)
  else if b = 0xe0 then some (2, between 0xa0 0xbf)
  else if b = 0xed then some (2, between 0x80 0x9f)
  else if between 0xe1 0xef b then some (2, continues)
  else if b = 0xf0 then some (3, between 0x90 0xbf)
  else if between 0xf1 0xf3 b then some (3, continues)
  else if b = 0xf4 then some (3, between 0x80 0x8f)
  else none

/-- The bits that a continuing byte adds to those read before it. -/
def extend (code : Nat) (b : UInt8) : Nat :=
  code * 64 + b.toNat % 64

/-- Reads bytes as text. The last two arguments describe a character that has begun: the bits
read so far and, in `awaits`, the classes of the bytes still to come. -/
def decodeFrom : List UInt8 → Nat → List (UInt8 → Bool) → List Char
  | [], _, [] => []
  | [], _, _ :: _ => [replacement]
  | b :: bs, _, [] => start b bs
  | b :: bs, code, next :: awaits =>
    if next b then
      match awaits with
      | [] => Char.ofNat (extend code b) :: decodeFrom bs 0 []
      | _ => decodeFrom bs (extend code b) awaits
    else replacement :: start b bs
where
  /-- Reads a byte that does not continue a character. -/
  start (b : UInt8) (bs : List UInt8) : List Char :=
    if b < 0x80 then Char.ofNat b.toNat :: decodeFrom bs 0 []
    else match lead? b with
      | none => replacement :: decodeFrom bs 0 []
      | some (1, second) => decodeFrom bs (b.toNat % 32) [second]
      | some (2, second) => decodeFrom bs (b.toNat % 16) [second, continues]
      | some (_, second) => decodeFrom bs (b.toNat % 8) [second, continues, continues]

/-- Reads bytes as text, with a replacement character for what is not well-formed. -/
def decode (bytes : ByteArray) : String :=
  String.ofList (decodeFrom bytes.data.toList 0 [])

/-! ### Well-formed bytes -/

/-- A text is read back from its bytes. -/
theorem fromUTF8?_toUTF8 (text : String) : String.fromUTF8? text.toUTF8 = some text := by
  simp [String.fromUTF8?, String.fromUTF8, text.isValidUTF8]

/-- Bytes that are read are those of what is read. -/
theorem toUTF8_of_fromUTF8? {bytes : ByteArray} {text : String}
    (h : String.fromUTF8? bytes = some text) : text.toUTF8 = bytes := by
  rw [String.fromUTF8?] at h
  split at h
  next => exact Option.some.inj h ▸ rfl
  next => cases h

end Multicast.Text.Utf8
