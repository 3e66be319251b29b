import Multicast.Source.Lexing

/-!
# Reading fixed texts

What is read from one given text can be evaluated, and two things make that slow. Whether a character is
a letter is looked up in some seven hundred ranges, and all of them are gone through for a bracket or a
blank, though no range but the first two has anything to do with ASCII. And a string is kept as bytes, from
which its characters have to be decoded.

Here the same reading is put so that neither is met. Below 128 a class is looked up among its first ranges
only (`Ranges.covers_eq_coversFast`), the cutting of a text uses these classes (`split_eq_splitFast`), and
the tokens are those of the characters of a text, whatever way they are known (`tokenize_eq_tokenizeChars`):
for a text that is written out, `String.toList_ofList` gives them without its bytes.

## Two versions of each function

For every function that cutting uses there is a fast one here, with an equation between the two. The fast
ones are never stated about: they serve proofs about fixed texts, which rewrite with the equation and then
evaluate. For a single character this is not needed: below 128 the classes are those of the standard
library (`isNameChar_of_lt`), and whether a bracket is a letter follows without its ranges.

The ranges of a class are in ascending order, so that for a character below 128 those above need not be
looked at. How many are enough is a number for each class, and that it is enough is decided once for all
such characters.
-/

namespace Multicast

/-! ### Results that are there -/

section

variable {ε α : Type}

theorem eq_ok_of_toOption {x : Except ε α} {a : α} (h : x.toOption = some a) : x = .ok a := by
  cases x with
  | error e => cases h
  | ok b => exact congrArg Except.ok (Option.some.inj h)

/-- What a check has passed is there. -/
theorem exists_ok_of_any {x : Except ε α} {check : α → Bool} (h : x.toOption.any check = true) :
    ∃ a, x = .ok a ∧ check a = true := by
  cases x with
  | error e => cases h
  | ok a => exact ⟨a, rfl, h⟩

theorem exists_error_of_isNone {x : Except ε α} (h : x.toOption.isNone = true) :
    ∃ e, x = .error e := by
  cases x with
  | error e => exact ⟨e, rfl⟩
  | ok a => cases h

end

/-! ### Classes of characters -/

namespace Text

/-- Whether a class covers a character. Below 128 the first `n` ranges are looked at and no others. -/
def Ranges.coversFast (n : Nat) (ranges : Ranges) (c : Char) : Bool :=
  if c.toNat < 128 then Ranges.covers (ranges.take n) c else ranges.covers c

theorem Ranges.covers_eq_coversFast {n : Nat} {ranges : Ranges}
    (h : ((ranges.drop n).all fun range => 128 ≤ range.1) = true) :
    ranges.covers = ranges.coversFast n := by
  funext c
  rw [coversFast]
  split
  next hc =>
    have hrest : Ranges.covers (ranges.drop n) c = false := by
      rw [covers, List.any_eq_false]
      intro range hrange
      have hlow := of_decide_eq_true (List.all_eq_true.1 h range hrange)
      simp only [Bool.and_eq_true, decide_eq_true_eq]
      omega
    rw [covers] at hrest ⊢
    rw [← List.take_append_drop n ranges, List.any_append, hrest, Bool.or_false,
      List.take_append_drop, covers]
  next => rfl

/-- Classes whose ranges lie apart have no character in common. -/
theorem Ranges.not_covers_of_apart {ranges others : Ranges}
    (h : (ranges.all fun r => others.all fun o => r.2 < o.1 || o.2 < r.1) = true) {c : Char}
    (hc : ranges.covers c = true) : others.covers c = false := by
  obtain ⟨r, hr, hrange⟩ := List.any_eq_true.1 hc
  rw [Ranges.covers, List.any_eq_false]
  intro o ho
  have hapart := List.all_eq_true.1 (List.all_eq_true.1 h r hr) o ho
  simp only [Bool.or_eq_true, decide_eq_true_eq, Bool.and_eq_true] at hapart hrange ⊢
  omega

/-- Blanks, letters and numerals, by their first ranges as far as these go. -/
def isBlankFast : Char → Bool := blankRanges.coversFast 2

/-- A letter, by the ranges of capital and small ones as far as these go. -/
def isLetterFast : Char → Bool := letterRanges.coversFast 2

/-- A numeral, by the range of the digits as far as it goes. -/
def isNumeralFast : Char → Bool := numeralRanges.coversFast 1

theorem isBlank_eq_isBlankFast : isBlank = isBlankFast :=
  Ranges.covers_eq_coversFast (by decide)

theorem isLetter_eq_isLetterFast : isLetter = isLetterFast :=
  Ranges.covers_eq_coversFast (by decide +kernel)

theorem isNumeral_eq_isNumeralFast : isNumeral = isNumeralFast :=
  Ranges.covers_eq_coversFast (by decide +kernel)

/-- Two classes agree on a character below 128 if they agree on all of them, one by one. -/
theorem eq_of_lt {class₁ class₂ : Char → Bool} (h : ((List.range 128).all fun n =>
      class₁ (Char.ofNat n) == class₂ (Char.ofNat n)) = true) {c : Char} (hc : c.toNat < 128) :
    class₁ c = class₂ c := by
  have hall := List.all_eq_true.1 h c.toNat (List.mem_range.2 hc)
  rw [Char.ofNat_toNat] at hall
  exact beq_iff_eq.1 hall

/-- Below 128 the letters are those of the alphabet. -/
theorem isLetter_of_lt {c : Char} (h : c.toNat < 128) : isLetter c = c.isAlpha := by
  rw [isLetter_eq_isLetterFast]
  exact eq_of_lt (by decide +kernel) h

/-- Below 128 the numerals are the digits. -/
theorem isNumeral_of_lt {c : Char} (h : c.toNat < 128) : isNumeral c = c.isDigit := by
  rw [isNumeral_eq_isNumeralFast]
  exact eq_of_lt (by decide +kernel) h

end Text

namespace Source

open Text (isBlankFast isLetterFast isNumeralFast)

/-- A character that continues a name. -/
def isNameCharFast (c : Char) : Bool :=
  isLetterFast c || isNumeralFast c || c = '_'

theorem isNameChar_eq_isNameCharFast : isNameChar = isNameCharFast := by
  funext c
  rw [isNameChar, isNameCharFast, Text.isLetter_eq_isLetterFast, Text.isNumeral_eq_isNumeralFast]

/-- Below 128 the characters of names are the letters of the alphabet, the digits and `_`. -/
theorem isNameChar_of_lt {c : Char} (h : c.toNat < 128) :
    isNameChar c = (c.isAlphanum || c = '_') := by
  rw [isNameChar, Text.isLetter_of_lt h, Text.isNumeral_of_lt h, Char.isAlphanum]

/-- What a name may begin with may stand in a name. -/
theorem isNameChar_of_first {c : Char} (h : (Text.isLetter c || c = '_') = true) :
    isNameChar c = true := by
  rcases Bool.or_eq_true_iff.1 h with hletter | hunderscore
  · simp [isNameChar, hletter]
  · simp [isNameChar, of_decide_eq_true hunderscore]

/-- No character of a name is a blank, as the ranges of letters and numerals lie apart from theirs. -/
theorem isBlank_of_isNameChar {c : Char} (h : isNameChar c = true) : Text.isBlank c = false := by
  simp only [isNameChar, Bool.or_eq_true, decide_eq_true_eq] at h
  rcases h with (hletter | hnumeral) | rfl
  · exact Text.Ranges.not_covers_of_apart (by decide +kernel) hletter
  · exact Text.Ranges.not_covers_of_apart (by decide +kernel) hnumeral
  · decide

/-- Characters below 128 that are no letters, no digits and not `_` stand in no name. -/
theorem isNameChar_of_all {l : List Char}
    (h : (l.all fun c => c.toNat < 128 && !(c.isAlphanum || c = '_')) = true) {c : Char}
    (hc : c ∈ l) : isNameChar c = false := by
  have hnot := List.all_eq_true.1 h c hc
  simp only [Bool.and_eq_true, decide_eq_true_eq, Bool.not_eq_true'] at hnot
  exact (isNameChar_of_lt hnot.1).trans hnot.2

/-- No operator has a character of a name in it. -/
theorem isNameChar_of_mem_operators {op : List Char × Kind} (hop : op ∈ operators) {d : Char}
    (hd : d ∈ op.1) : isNameChar d = false :=
  isNameChar_of_all (l := operators.flatMap Prod.fst) (by decide) (List.mem_flatMap.2 ⟨op, hop, hd⟩)

/-- A character of a name is none that begins a literal, a comment or a line. -/
theorem isNameChar_ne {c : Char} (h : isNameChar c = true) :
    c ∉ ['\n', '/', '"', rawQuote, '\''] := by
  intro hmem
  rw [isNameChar_of_all (by decide) hmem] at h
  cases h

/-! ### Pieces -/

/-- What continues a number, and what follows the number. -/
def numberRestFast (hex : Bool) (last : Char) : List Char → List Char × List Char
  | [] => ([], [])
  | c :: cs =>
    if isNameCharFast c || c = '.' || ((c = '+' || c = '-') && isExponentMark hex last) then
      let (text, rest) := numberRestFast (hex || c = 'x' || c = 'X') c cs
      (c :: text, rest)
    else ([], c :: cs)

theorem numberRest_eq_numberRestFast (hex : Bool) (last : Char) (cs : List Char) :
    numberRest hex last cs = numberRestFast hex last cs := by
  induction cs generalizing hex last with
  | nil => rfl
  | cons c cs ih =>
    rw [numberRest, numberRestFast, continuesNumber, isNameChar_eq_isNameCharFast, ih]

/-- The first piece of a text that starts with `c`, and what follows it. -/
def Piece.nextFast (c : Char) (cs : List Char) : Option (Piece × List Char) :=
  if c = '\n' then some (.newline, cs)
  else if isBlankFast c then some (.blank c, cs)
  else if c = '/' && cs.head? = some '/' then
    some (.lineComment (c :: cs.takeWhile (· ≠ '\n')), cs.dropWhile (· ≠ '\n'))
  else if c = '/' && cs.head? = some '*' then
    some ((commentEnd cs.tail).piece [c, '*'] .blockComment .openComment)
  else if isLetterFast c || c = '_' then
    let word := c :: cs.takeWhile isNameCharFast
    some (.lexeme (.ofWord (String.ofList word)) word, cs.dropWhile isNameCharFast)
  else if startsNumber c cs then
    let (text, rest) := numberRestFast false c cs
    some (.lexeme .number (c :: text), rest)
  else if c = '"' then some ((literalEnd c cs).piece [c] (.lexeme .string) .openString)
  else if c = rawQuote then some ((rawEnd cs).piece [c] (.lexeme .string) .openRawString)
  else if c = '\'' then some ((literalEnd c cs).piece [c] (.lexeme .rune) .openRune)
  else (operator? (c :: cs)).map fun op => (.lexeme op.2 op.1, (c :: cs).drop op.1.length)

theorem Piece.next_eq_nextFast : Piece.next = Piece.nextFast := by
  funext c cs
  delta Piece.next Piece.nextFast
  rw [Text.isBlank_eq_isBlankFast, Text.isLetter_eq_isLetterFast, isNameChar_eq_isNameCharFast,
    numberRest_eq_numberRestFast]

/-- The pieces of a text, of which at most `n` are cut off in this way. -/
def splitFast : Nat → List Char → List Piece × List Char
  | _, [] => ([], [])
  | 0, cs => split cs
  | n + 1, c :: cs =>
    match Piece.nextFast c cs with
    | none => ([], c :: cs)
    | some (piece, rest) =>
      let (pieces, left) := splitFast n rest
      (piece :: pieces, left)

theorem split_eq_splitFast (n : Nat) : split = splitFast n := by
  funext cs
  fun_induction splitFast n cs with
  | case1 => rw [split]
  | case2 => rfl
  | case3 n c cs hnext => exact split_cons_none (by rw [Piece.next_eq_nextFast, hnext])
  | case4 n c cs piece rest hnext pieces left hsplit ih =>
    rw [split_cons_some (by rw [Piece.next_eq_nextFast, hnext]), ih, hsplit]

/-! ### Tokens -/

/-- The tokens of a text of these characters. -/
def tokenizeChars (cs : List Char) : Except Flaw Tokens :=
  let (pieces, left) := splitFast cs.length cs
  (Lexing.ofPieces left .start false pieces).tokens

/-- **The tokens of a text** are those of its characters. -/
theorem tokenize_eq_tokenizeChars (text : String) : tokenize text = tokenizeChars text.toList := by
  rw [tokenize, Lexing.ofText, split_eq_splitFast text.toList.length, tokenizeChars]

/-- The tokens of a text that is given by its characters. -/
theorem tokenize_ofList (cs : List Char) : tokenize (String.ofList cs) = tokenizeChars cs := by
  rw [tokenize_eq_tokenizeChars, String.toList_ofList]

end Source

end Multicast
