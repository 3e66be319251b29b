import Mathlib.Data.List.Find
import Multicast.Proofs.Evaluation

/-!
# Texts that are cut as they were put together

A text that is put together from pieces need not be cut into the same pieces again: `a` and `b` in a
row are one name. What it takes is that no piece runs on into the text behind it. A piece that does
not is said to *stand* before that text (`Piece.Stands`); whether it does can be told from one
character, the first of the text (`Piece.sticksTo`), and this is what `Piece.Stands.before` says.
Where every piece stands, cutting gives the pieces back (`split_of_stand`).

The words of the language are described by the same notion: a text is a token of some kind if it
stands alone as a lexeme of that kind (`Kind.Writes`).

## Two facts about cutting

*More text behind.* What is cut off a text is cut off the text with more behind it, unless it had come to
the end and the new text goes on with it (`Piece.next_append`). Which rule cuts is told by the first one
or two characters (`Beginning`), so the proof has one case per rule, and each rule has a lemma that says
how it takes more text behind: a run of characters, a comment, a literal, a raw string, a number, an
operator.

*The piece alone.* A lexeme that was cut off a text is cut off itself, with nothing left
(`Piece.stands_alone`). Here, too, there is one lemma for each rule, and what has to be excluded is that a
shorter text is cut by another rule than the longer one.

From the two follows the criterion that is used everywhere else: a piece that stands alone stands before
any text whose first character does not stick to it (`Piece.Stands.before`).
-/

namespace Multicast.Source

open Text (isBlank isLetter isNumeral)

/-! ### Standing

To stand is a property of a piece and the text behind it. Pieces in a row stand if each of them stands
before the text of all that follow, which is a condition on neighbours as soon as a piece is told by its
first character. -/

/-- The first piece of a text, and what follows it. -/
def Piece.first : List Char → Option (Piece × List Char)
  | [] => none
  | c :: cs => Piece.next c cs

/-- **A piece stands before a text**: behind it, the text begins another piece. -/
def Piece.Stands (p : Piece) (rest : List Char) : Prop :=
  Piece.first (p.text ++ rest) = some (p, rest)

/-- Which piece comes first, in the form that can be evaluated. -/
theorem Piece.first_eq_nextFast (cs : List Char) :
    Piece.first cs = (match cs with | [] => none | c :: cs => Piece.nextFast c cs) := by
  cases cs with
  | nil => rfl
  | cons c cs => rw [first, next_eq_nextFast]

instance (p : Piece) (rest : List Char) : Decidable (p.Stands rest) :=
  decidable_of_iff ((match p.text ++ rest with
    | [] => none
    | c :: cs => Piece.nextFast c cs) = some (p, rest)) (by rw [Piece.Stands, Piece.first_eq_nextFast])

/-- **A word is a token of a kind**: alone it is cut into one lexeme of that kind. -/
def Kind.Writes (kind : Kind) (word : String) : Prop :=
  (Piece.lexeme kind word.toList).Stands []

instance (kind : Kind) (word : String) : Decidable (kind.Writes word) :=
  inferInstanceAs (Decidable ((Piece.lexeme kind word.toList).Stands []))

/-- The text of pieces in a row. -/
abbrev textOf (ps : List Piece) : List Char := ps.flatMap Piece.text

/-- Every piece stands before the text of those behind it, and the last before `rest`. -/
def Stand : List Piece → List Char → Prop
  | [], _ => True
  | p :: ps, rest => p.Stands (textOf ps ++ rest) ∧ Stand ps rest

@[simp] theorem stand_nil (rest : List Char) : Stand [] rest := trivial

@[simp] theorem stand_cons (p : Piece) (ps : List Piece) (rest : List Char) :
    Stand (p :: ps) rest ↔ p.Stands (textOf ps ++ rest) ∧ Stand ps rest := Iff.rfl

/-- Pieces stand one after the other if the first ones stand before the text of the others. -/
theorem stand_append {ps qs : List Piece} {rest : List Char} :
    Stand (ps ++ qs) rest ↔ Stand ps (textOf qs ++ rest) ∧ Stand qs rest := by
  induction ps with
  | nil => simp
  | cons p ps ih => simp [ih, and_assoc]

/-- A piece that stands begins a text, and its first character decides how it is cut off. -/
theorem Piece.Stands.next {p : Piece} {rest : List Char} (h : p.Stands rest) :
    ∃ c cs, p.text ++ rest = c :: cs ∧ Piece.next c cs = some (p, rest) := by
  unfold Piece.Stands at h
  cases htext : p.text ++ rest with
  | nil =>
    rw [htext] at h
    cases h
  | cons c cs => exact ⟨c, cs, rfl, by rwa [htext] at h⟩

/-- **A piece that stands is cut off**, and the rest is cut as it would be alone. -/
theorem split_of_stands {p : Piece} {rest : List Char} (h : p.Stands rest) :
    split (p.text ++ rest) = (p :: (split rest).1, (split rest).2) := by
  obtain ⟨c, cs, htext, hnext⟩ := h.next
  rw [htext]
  exact split_cons_some hnext

/-- **Pieces that stand are what their text is cut into.** -/
theorem split_of_stand {ps : List Piece} {rest : List Char} (h : Stand ps rest) :
    split (textOf ps ++ rest) = (ps ++ (split rest).1, (split rest).2) := by
  induction ps with
  | nil => rfl
  | cons p ps ih =>
    obtain ⟨hp, hps⟩ := h
    rw [textOf, List.flatMap_cons, List.append_assoc, split_of_stands hp, ih hps]
    rfl

/-- What has been cut off a text stands before the rest of it. -/
theorem Piece.stands_of_next {c : Char} {cs rest : List Char} {p : Piece}
    (h : Piece.next c cs = some (p, rest)) : p.Stands rest := by
  rw [Piece.Stands, Piece.next_text h]
  exact h

/-- The pieces of a text stand in it. -/
theorem stand_split (text : List Char) : Stand (split text).1 (split text).2 := by
  fun_induction split text with
  | case1 => trivial
  | case2 => trivial
  | case3 c cs p rest h pieces left hsplit ih =>
    rw [hsplit] at ih
    have hrest : textOf pieces ++ left = rest := by
      have := split_text rest
      rwa [hsplit] at this
    exact ⟨hrest ▸ Piece.stands_of_next h, ih⟩

/-! ### Texts with more behind them

What is found at the beginning of a text is found there as well if the text goes on, provided that
the search did not end only because the text did. -/

@[simp] theorem Ending.found_push (c : Char) (e : Ending) : (e.push c).found = e.found := rfl

/-- A run of characters does not go on into a text behind it that begins otherwise. -/
theorem span_append {P : Char → Bool} {t s : List Char}
    (h : t.dropWhile P = [] → ∀ d ∈ s.head?, P d = false) :
    (t ++ s).takeWhile P = t.takeWhile P ∧ (t ++ s).dropWhile P = t.dropWhile P ++ s := by
  induction t with
  | nil =>
    cases s with
    | nil => simp
    | cons d s => simp [h rfl d rfl]
  | cons c t ih =>
    by_cases hc : P c
    · simp only [List.dropWhile_cons, hc, if_true] at h
      simpa [hc] using ih h
    · simp [hc]

/-- A comment that is closed is not changed by what follows it. -/
theorem commentEnd_append {cs : List Char} (h : (commentEnd cs).found) (s : List Char) :
    commentEnd (cs ++ s) = { commentEnd cs with rest := (commentEnd cs).rest ++ s } := by
  fun_induction commentEnd cs with
  | case1 => simp at h
  | case2 cs => simp [commentEnd]
  | case3 c cs hne ih =>
    have hne' : ∀ cs', c = '*' → cs ++ s = '/' :: cs' → False := by
      rintro cs' rfl hcs
      cases cs with
      | nil => simp [commentEnd] at h
      | cons d ds =>
        rw [List.cons_append, List.cons.injEq] at hcs
        exact hne ds rfl (by rw [hcs.1])
    rw [List.cons_append, commentEnd, ih h]
    · rfl
    · exact hne'

/-- A literal that is closed is not changed by what follows it. -/
theorem literalEnd_append {quote : Char} {cs : List Char} (h : (literalEnd quote cs).found)
    (s : List Char) :
    literalEnd quote (cs ++ s) =
      { literalEnd quote cs with rest := (literalEnd quote cs).rest ++ s } := by
  fun_induction literalEnd quote cs with
  | case1 => simp at h
  | case2 =>
    rw [List.cons_append, literalEnd.eq_def]
    simp
  | case3 _ hq => simp at h
  | case4 => simp at h
  | case5 h1 h2 d ds ih =>
    rw [List.cons_append, List.cons_append, literalEnd.eq_def]
    simp_all [Ending.push]
  | case6 c cs h1 h2 h3 ih =>
    rw [List.cons_append, literalEnd.eq_def]
    simp_all [Ending.push]

/-- A raw string that is closed is not changed by what follows it. -/
theorem rawEnd_append {cs : List Char} (h : (rawEnd cs).found) (s : List Char) :
    rawEnd (cs ++ s) = { rawEnd cs with rest := (rawEnd cs).rest ++ s } := by
  fun_induction rawEnd cs with
  | case1 => simp at h
  | case2 => simp [rawEnd]
  | case3 => simp_all [rawEnd, Ending.push]

/-- A literal or comment that is not broken has its end. -/
theorem Ending.found_of_piece {opening : List Char} {whole : List Char → Piece} {cause : Cause}
    {e : Ending} {p : Piece} {rest : List Char} (hp : e.piece opening whole cause = (p, rest))
    (hsound : ∀ c t, p ≠ .broken c t) : e.found := by
  unfold Ending.piece at hp
  split at hp
  next h => exact h
  next =>
    cases hp
    exact absurd rfl (hsound _ _)

/-- A piece that was closed leaves what follows it. -/
theorem Ending.piece_append {opening : List Char} {whole : List Char → Piece} {cause : Cause}
    {e : Ending} {p : Piece} {rest : List Char} (hp : e.piece opening whole cause = (p, rest))
    (s : List Char) :
    Ending.piece opening whole cause { e with rest := e.rest ++ s } = (p, rest ++ s) := by
  unfold Ending.piece at hp ⊢
  split at hp <;> cases hp <;> simp [*]

/-- Whether a character may be read with a number in front of it. -/
def continuesSomeNumber (d : Char) : Bool :=
  isNameChar d || d = '.' || d = '+' || d = '-'

/-- A number does not go on into a text that begins with no digit, letter, dot or sign. -/
theorem numberRest_append {hex : Bool} {last : Char} {cs s : List Char}
    (h : (numberRest hex last cs).2 = [] → ∀ d ∈ s.head?, continuesSomeNumber d = false) :
    numberRest hex last (cs ++ s) =
      ((numberRest hex last cs).1, (numberRest hex last cs).2 ++ s) := by
  fun_induction numberRest hex last cs with
  | case1 hex last =>
    cases s with
    | nil => simp [numberRest]
    | cons d s =>
      have := h rfl d rfl
      simp_all [continuesSomeNumber, numberRest, continuesNumber]
  | case2 hex last c cs hc text rest heq ih => simp_all [numberRest]
  | case3 => simp_all [numberRest]

/-- An operator that is found is a prefix of the text. -/
theorem prefix_of_operator? {text : List Char} {op : List Char × Kind}
    (h : operator? text = some op) : op.1 <+: text := by
  have := List.find?_some h
  exact List.isPrefixOf_iff_prefix.1 this

/-- The operator that is found stays the same if no longer one comes about with the text behind. -/
theorem operator?_append {t s : List Char}
    (h : ∀ op ∈ operators, op.1 <+: t ++ s → op.1 <+: t) :
    operator? (t ++ s) = operator? t := by
  refine List.find?_congr fun op hop => ?_
  rw [Bool.eq_iff_iff, List.isPrefixOf_iff_prefix, List.isPrefixOf_iff_prefix]
  exact ⟨h op hop, fun hp => hp.trans (List.prefix_append _ _)⟩

/-! ### Which character a piece runs on into

Names and keywords go on with letters and digits, numbers with more than these, operators with operators.
A literal that is closed goes on with nothing. -/

/-- The kinds of operators and delimiters. -/
def Kind.isSymbol : Kind → Bool
  | .identifier | .number | .rune | .string | .keyword _ => false
  | _ => true

/-- Whether a character right behind a piece might be read with it. -/
def Piece.sticksTo (p : Piece) (d : Char) : Bool :=
  match p with
  | newline | blank _ | blockComment _ => false
  | broken _ _ => true
  | lineComment _ => d != '\n'
  | lexeme kind t =>
    if kind.isSymbol then
      operators.any (fun op => (t ++ [d]).isPrefixOf op.1) ||
        (t == ['/'] && (d = '/' || d = '*')) || (t == ['.'] && d.isDigit)
    else match kind with
      | .number => continuesSomeNumber d
      | .string | .rune => false
      | _ => isNameChar d

/-- All operators are symbols. -/
theorem isSymbol_of_mem {op : List Char × Kind} (h : op ∈ operators) : op.2.isSymbol := by
  have hall : (operators.all fun op => op.2.isSymbol) = true := by decide
  exact List.all_eq_true.1 hall op h

/-- No operator runs on into a character that stands in none. -/
theorem any_prefix_eq_false {d : Char} (h : ∀ op ∈ operators, d ∉ op.1) (t : List Char) :
    (operators.any fun op => (t ++ [d]).isPrefixOf op.1) = false := by
  rw [List.any_eq_false]
  intro op hop hprefix
  exact h op hop ((List.isPrefixOf_iff_prefix.1 hprefix).subset (by simp))

/-- No operator goes over a space or over the end of a line. -/
theorem space_not_mem {d : Char} (hd : d ∈ [' ', '\n']) {op : List Char × Kind}
    (h : op ∈ operators) : d ∉ op.1 := by
  have hall : (operators.all fun op => [' ', '\n'].all fun d => !op.1.contains d) = true := by decide
  simpa using List.all_eq_true.1 (List.all_eq_true.1 hall op h) d hd

/-- No word or operator runs on into a space or a newline. -/
theorem Piece.sticksTo_space {d : Char} (hd : d ∈ [' ', '\n']) (kind : Kind) (t : List Char) :
    (Piece.lexeme kind t).sticksTo d = false := by
  have hname : isNameChar d = false := isNameChar_of_all (by decide) hd
  unfold sticksTo
  dsimp only
  rw [any_prefix_eq_false (fun op => space_not_mem hd) t]
  obtain rfl | rfl : d = ' ' ∨ d = '\n' := by simpa using hd
  all_goals cases kind <;> simp [continuesSomeNumber, hname, Kind.isSymbol]

/-- No word is a symbol, be it a keyword or a name. -/
theorem Kind.isSymbol_ofWord (word : String) : (Kind.ofWord word).isSymbol = false := by
  unfold Kind.ofWord
  split <;> rfl

/-- An operator that does not run on is found whatever follows. -/
theorem operator?_before {t s : List Char} {kind : Kind} (h : operator? t = some (t, kind))
    (hsticks : ∀ d ∈ s.head?, (Piece.lexeme kind t).sticksTo d = false) :
    operator? (t ++ s) = some (t, kind) := by
  rw [operator?_append _, h]
  intro op hop hprefix
  by_contra hnot
  obtain ⟨d, u, hdu⟩ : ∃ d u, s = d :: u := by
    cases s with
    | nil => exact absurd (by simpa using hprefix) hnot
    | cons d u => exact ⟨d, u, rfl⟩
  subst hdu
  have hkind : kind.isSymbol := isSymbol_of_mem (List.mem_of_find?_eq_some h)
  have hsticks := hsticks d rfl
  have hlong : t ++ [d] <+: op.1 := by
    have htd : t ++ [d] <+: t ++ d :: u := ⟨u, by simp⟩
    refine List.prefix_of_prefix_length_le htd hprefix ?_
    by_contra hlen
    refine hnot (List.prefix_of_prefix_length_le hprefix (List.prefix_append _ _) ?_)
    simp only [List.length_append, List.length_singleton] at hlen
    omega
  have hany : (operators.any fun op => (t ++ [d]).isPrefixOf op.1) = true :=
    List.any_eq_true.2 ⟨op, hop, List.isPrefixOf_iff_prefix.2 hlong⟩
  simp only [Piece.sticksTo, hkind, hany, if_true, Bool.true_or] at hsticks
  cases hsticks

/-- A word goes on with letters and digits. -/
theorem Piece.sticksTo_word (word : String) (t : List Char) (d : Char) :
    (Piece.lexeme (.ofWord word) t).sticksTo d = isNameChar d := by
  unfold Kind.ofWord
  split <;> rfl

/-! ### What a text begins with

The first two characters of a text tell by which rule its first piece is cut off. So a text that goes on
is first compared by what it begins with (`Beginning.of_append`), and then each rule has to be looked
at by itself. -/

/-- What a text begins with. -/
inductive Beginning
  | newline
  | blank
  | lineComment
  | blockComment
  | word
  | number
  | string
  | rawString
  | rune
  | symbol

namespace Beginning

/-- What a text that starts with `c` begins with. -/
def of (c : Char) (cs : List Char) : Beginning :=
  if c = '\n' then newline
  else if isBlank c then blank
  else if c = '/' && cs.head? = some '/' then lineComment
  else if c = '/' && cs.head? = some '*' then blockComment
  else if isLetter c || c = '_' then word
  else if startsNumber c cs then number
  else if c = '"' then string
  else if c = rawQuote then rawString
  else if c = '\'' then rune
  else symbol

/-- The first piece of a text that starts with `c`, and what follows it, by the rule for what the text
begins with. -/
def cut (c : Char) (cs : List Char) : Beginning → Option (Piece × List Char)
  | newline => some (.newline, cs)
  | blank => some (.blank c, cs)
  | lineComment => some (.lineComment (c :: cs.takeWhile (· ≠ '\n')), cs.dropWhile (· ≠ '\n'))
  | blockComment => some ((commentEnd cs.tail).piece [c, '*'] .blockComment .openComment)
  | word =>
    let word := c :: cs.takeWhile isNameChar
    some (.lexeme (.ofWord (String.ofList word)) word, cs.dropWhile isNameChar)
  | number => some (.lexeme .number (c :: (numberRest false c cs).1), (numberRest false c cs).2)
  | string => some ((literalEnd c cs).piece [c] (.lexeme .string) .openString)
  | rawString => some ((rawEnd cs).piece [c] (.lexeme .string) .openRawString)
  | rune => some ((literalEnd c cs).piece [c] (.lexeme .rune) .openRune)
  | symbol => (operator? (c :: cs)).map fun op => (.lexeme op.2 op.1, (c :: cs).drop op.1.length)

/-- What a text begins with is the same if it goes on. Only a slash or a dot at its end is to be
watched. -/
theorem of_append {c : Char} {cs s : List Char}
    (h : cs = [] → ∀ d ∈ s.head?, (c = '/' → d ≠ '/' ∧ d ≠ '*') ∧ (c = '.' → d.isDigit = false)) :
    of c (cs ++ s) = of c cs := by
  cases cs with
  | cons d ds => rfl
  | nil =>
    cases s with
    | nil => rfl
    | cons d s =>
      obtain ⟨hslash, hdot⟩ := h rfl d rfl
      by_cases hc : c = '/'
      · simp [of, startsNumber, hc, hslash hc]
      by_cases hc' : c = '.'
      · simp [of, startsNumber, hc', hdot hc']
      · simp [of, startsNumber, hc, hc']

/-- What a beginning says of the characters, where a rule needs to know it. -/
def Holds (c : Char) (cs : List Char) : Beginning → Prop
  | blockComment => c = '/' ∧ cs.head? = some '*'
  | word => (isLetter c || c = '_') = true
  | number => startsNumber c cs = true
  | _ => True

/-- What begins in a text is told by its first character, and each of the cases holds what it says.
-/
theorem holds_of (c : Char) (cs : List Char) : (of c cs).Holds c cs := by
  unfold of
  repeat' split
  all_goals simp_all [Holds]

/-- A number may begin with a dot, if a digit is behind it. -/
theorem of_dot {d : Char} (hd : d.isDigit = true) (cs : List Char) : of '.' (d :: cs) = number := by
  have hletter : Text.isLetter '.' = false := Text.isLetter_of_lt (by decide)
  rw [of, if_neg (by decide), if_neg (by decide), if_neg (by simp), if_neg (by simp),
    if_neg (by simp [hletter]), if_pos (by simp [startsNumber, hd])]

end Beginning

/-- **What a text begins with tells how its first piece is cut off.** -/
theorem Piece.next_eq_cut (c : Char) (cs : List Char) :
    Piece.next c cs = (Beginning.of c cs).cut c cs := by
  simp only [Beginning.of, apply_ite (Beginning.cut c cs)]
  rfl

/-- A slash or a dot that is all of a text is an operator, and it runs on into what would make a comment
or a number of it. -/
theorem Piece.sticksTo_lone {c d : Char} {p : Piece} {rest : List Char}
    (h : Piece.next c [] = some (p, rest)) (hsticks : p.sticksTo d = false) :
    (c = '/' → d ≠ '/' ∧ d ≠ '*') ∧ (c = '.' → d.isDigit = false) := by
  constructor
  · rintro rfl
    have hslash : Piece.next '/' [] = some (.lexeme .operator ['/'], []) := by
      rw [Piece.next_eq_nextFast]
      rfl
    obtain ⟨rfl, -⟩ := Prod.mk.inj (Option.some.inj (hslash.symm.trans h))
    obtain ⟨hcomment, -⟩ := Bool.or_eq_false_iff.1 hsticks
    simpa using (Bool.or_eq_false_iff.1 hcomment).2
  · rintro rfl
    have hdot : Piece.next '.' [] = some (.lexeme .dot ['.'], []) := by
      rw [Piece.next_eq_nextFast]
      rfl
    obtain ⟨rfl, -⟩ := Prod.mk.inj (Option.some.inj (hdot.symm.trans h))
    simpa [sticksTo, Kind.isSymbol] using (Bool.or_eq_false_iff.1 hsticks).2

/-- A piece with an end of its own is found again if the text goes on. -/
theorem Ending.some_piece_append {opening : List Char} {whole : List Char → Piece} {cause : Cause}
    {e e' : Ending} {p : Piece} {rest s : List Char}
    (h : some (e.piece opening whole cause) = some (p, rest))
    (hsound : ∀ cause t, p ≠ .broken cause t)
    (hmore : e.found → e' = { e with rest := e.rest ++ s }) :
    some (e'.piece opening whole cause) = some (p, rest ++ s) := by
  have hpiece := Option.some.inj h
  rw [hmore (Ending.found_of_piece hpiece hsound)]
  exact congrArg some (Ending.piece_append hpiece s)

/-- **What is cut off a text is cut off it as well if the text goes on**, unless it reached the end
of the text and runs on into what is added. -/
theorem Piece.next_append {c : Char} {cs rest s : List Char} {p : Piece}
    (h : Piece.next c cs = some (p, rest)) (hsound : ∀ cause t, p ≠ .broken cause t)
    (hop : ∀ op, p = .lexeme op.2 op.1 → operator? (c :: cs) = some op →
      operator? (c :: (cs ++ s)) = some op)
    (hsticks : rest = [] → ∀ d ∈ s.head?, p.sticksTo d = false) :
    Piece.next c (cs ++ s) = some (p, rest ++ s) := by
  -- what kind of piece begins is told by two characters; the second one may come from the rest
  have hsame : Beginning.of c (cs ++ s) = Beginning.of c cs := by
    refine Beginning.of_append fun hnil d hd => ?_
    subst hnil
    have hrest : rest = [] := by simpa using Piece.length_next_lt h
    exact Piece.sticksTo_lone h (hsticks hrest d hd)
  rw [Piece.next_eq_cut, hsame]
  rw [Piece.next_eq_cut] at h
  cases hbegins : Beginning.of c cs with
  | newline | blank =>
    rw [hbegins] at h
    cases h
    rfl
  -- words, numbers and line comments end at the first character that they do not hold
  | lineComment =>
    rw [hbegins] at h
    cases h
    obtain ⟨htake, hdrop⟩ := span_append (P := (· ≠ '\n')) (t := cs) (s := s) fun hrest d hd => by
      simpa [sticksTo] using hsticks hrest d hd
    rw [Beginning.cut, htake, hdrop]
  | blockComment =>
    obtain ⟨-, hstar⟩ : Beginning.blockComment.Holds c cs := hbegins ▸ Beginning.holds_of c cs
    obtain ⟨ds, rfl⟩ := List.head?_eq_some_iff.1 hstar
    rw [hbegins] at h
    exact Ending.some_piece_append h hsound fun hfound => commentEnd_append hfound s
  | word =>
    rw [hbegins] at h
    cases h
    obtain ⟨htake, hdrop⟩ := span_append (P := isNameChar) (t := cs) (s := s) fun hrest d hd => by
      simpa [sticksTo_word] using hsticks hrest d hd
    rw [Beginning.cut, htake, hdrop]
  | number =>
    rw [hbegins] at h
    cases h
    rw [Beginning.cut, numberRest_append fun hrest d hd => by
      simpa [sticksTo, Kind.isSymbol] using hsticks hrest d hd]
  -- literals and block comments have an end of their own, and it has been found
  | string | rune =>
    rw [hbegins] at h
    exact Ending.some_piece_append h hsound fun hfound => literalEnd_append hfound s
  | rawString =>
    rw [hbegins] at h
    exact Ending.some_piece_append h hsound fun hfound => rawEnd_append hfound s
  -- an operator may be the start of a longer one, and this is excluded
  | symbol =>
    rw [hbegins] at h
    obtain ⟨op, hfound, heq⟩ := Option.map_eq_some_iff.1 h
    cases heq
    rw [Beginning.cut, hop op rfl hfound, Option.map_some, ← List.cons_append,
      List.drop_append_of_le_length (prefix_of_operator? hfound).length_le]

/-- **A piece that stands alone stands before every text it does not run on into.** -/
theorem Piece.Stands.before {p : Piece} {rest : List Char} (h : p.Stands [])
    (hsound : ∀ cause t, p ≠ .broken cause t) (hsticks : ∀ d ∈ rest.head?, p.sticksTo d = false) :
    p.Stands rest := by
  obtain ⟨c, cs, htext, hnext⟩ := h.next
  rw [List.append_nil] at htext
  suffices hcut : Piece.next c (cs ++ rest) = some (p, rest) from Piece.stands_of_next hcut
  refine Piece.next_append hnext hsound ?_ fun _ => hsticks
  rintro ⟨t, kind⟩ rfl hop
  obtain rfl : t = c :: cs := htext
  exact operator?_before hop hsticks

/-- No operator goes on behind the end of a line. -/
theorem prefix_of_newline {op text s : List Char} (hop : '\n' ∉ op)
    (h : op <+: text ++ '\n' :: s) : op <+: text := by
  rcases Nat.lt_or_ge text.length op.length with hlt | hge
  · have hlong : text ++ ['\n'] <+: op :=
      List.prefix_of_prefix_length_le ⟨s, by simp⟩ h (by simpa [Nat.succ_le_iff] using hlt)
    exact absurd (hlong.subset (by simp)) hop
  · exact List.prefix_of_prefix_length_le h (List.prefix_append _ _) hge

/-- No piece runs on into the next line. -/
theorem Piece.sticksTo_newline {p : Piece} (hsound : ∀ cause t, p ≠ .broken cause t) :
    p.sticksTo '\n' = false := by
  cases p with
  | newline | blank _ | blockComment _ | lineComment _ => rfl
  | broken cause t => exact absurd rfl (hsound cause t)
  | lexeme kind t => exact sticksTo_space (by simp) kind t

/-- **The end of a line ends every piece**: what is cut off a text is cut off it as well if further
lines follow. -/
theorem Piece.Stands.before_newline {p : Piece} {rest : List Char} (h : p.Stands rest)
    (hsound : ∀ cause t, p ≠ .broken cause t) (s : List Char) : p.Stands (rest ++ '\n' :: s) := by
  obtain ⟨c, cs, htext, hnext⟩ := h.next
  suffices hcut : Piece.next c (cs ++ '\n' :: s) = some (p, rest ++ '\n' :: s) from
    Piece.stands_of_next hcut
  refine Piece.next_append hnext hsound ?_ fun _ d hd => ?_
  · rintro op - hop
    rw [← hop]
    exact operator?_append (t := c :: cs) fun op hop => prefix_of_newline (space_not_mem (by simp) hop)
  · cases hd
    exact Piece.sticksTo_newline hsound

/-! ### Tokens of a text as words

Every lexeme that is cut off a text is a word of its kind: cut off once more, it is the same. -/

/-- A run of characters, taken out and cut again, is one run. -/
theorem takeWhile_idem (P : Char → Bool) (cs : List Char) :
    (cs.takeWhile P).takeWhile P = cs.takeWhile P ∧ (cs.takeWhile P).dropWhile P = [] := by
  induction cs with
  | nil => simp
  | cons c cs ih => by_cases hc : P c <;> simp [hc, ih]

/-- A literal, taken out and cut again, is the whole text. -/
theorem literalEnd_idem {quote : Char} {cs : List Char} (h : (literalEnd quote cs).found) :
    literalEnd quote (literalEnd quote cs).text = { literalEnd quote cs with rest := [] } := by
  fun_induction literalEnd quote cs with
  | case1 => simp at h
  | case2 =>
    rw [literalEnd.eq_def]
    simp
  | case3 _ hq => simp at h
  | case4 => simp at h
  | case5 h1 h2 d ds ih =>
    rw [Ending.text_push, Ending.text_push, literalEnd.eq_def]
    simp_all [Ending.push]
  | case6 c cs h1 h2 h3 ih =>
    rw [Ending.text_push, literalEnd.eq_def]
    simp_all [Ending.push]

/-- A raw string, taken out and cut again, is the whole text. -/
theorem rawEnd_idem {cs : List Char} (h : (rawEnd cs).found) :
    rawEnd (rawEnd cs).text = { rawEnd cs with rest := [] } := by
  fun_induction rawEnd cs with
  | case1 => simp at h
  | case2 => simp [rawEnd]
  | case3 => simp_all [rawEnd, Ending.push]

/-- A number, taken out and cut again, is the whole text. -/
theorem numberRest_idem (hex : Bool) (last : Char) (cs : List Char) :
    numberRest hex last (numberRest hex last cs).1 = ((numberRest hex last cs).1, []) := by
  fun_induction numberRest hex last cs with
  | case1 => simp [numberRest]
  | case2 hex last c cs hc text rest heq ih => simp_all [numberRest]
  | case3 => simp [numberRest]

/-- A digit is a numeral. -/
theorem isNumeral_of_isDigit {c : Char} (h : c.isDigit = true) : isNumeral c = true := by
  have hrange : 48 ≤ c.toNat ∧ c.toNat ≤ 57 := by
    simpa [Char.isDigit, UInt32.le_iff_toNat_le] using h
  have hmem : ((48, 57) : Nat × Nat) ∈ Text.numeralRanges := by simp [Text.numeralRanges]
  exact List.any_eq_true.2 ⟨_, hmem, by simpa using hrange⟩

/-- An operator, taken out and cut again, is the operator. -/
theorem operator?_idem {text : List Char} {op : List Char × Kind} (h : operator? text = some op) :
    operator? op.1 = some op := by
  obtain ⟨u, hu⟩ := prefix_of_operator? h
  obtain ⟨hfits, before, after, hsplit, hbefore⟩ := List.find?_eq_some_iff_append.1 h
  refine List.find?_eq_some_iff_append.2 ⟨?_, before, after, hsplit, fun op' hop' => ?_⟩
  · exact List.isPrefixOf_iff_prefix.2 (List.prefix_refl _)
  · have hnot := hbefore op' hop'
    simp only [Bool.not_eq_true', Bool.eq_false_iff, ne_eq, List.isPrefixOf_iff_prefix] at hnot ⊢
    exact fun hpre => hnot (hpre.trans (prefix_of_operator? h))

/-- A literal with its end, cut off once more. -/
theorem Ending.piece_idem {opening t : List Char} {kind : Kind} {cause : Cause} {e : Ending}
    {k : Kind} {rest : List Char}
    (hp : e.piece opening (.lexeme kind) cause = (.lexeme k t, rest)) :
    e.found ∧ k = kind ∧ t = opening ++ e.text := by
  unfold Ending.piece at hp
  split at hp <;> cases hp
  next h => exact ⟨h, rfl, rfl⟩

/-- A literal with its end, from which the same end is found in what was cut off. -/
theorem Ending.some_piece_idem {c : Char} {t rest : List Char} {kind k : Kind} {cause : Cause}
    {e e' : Ending} (h : some (e.piece [c] (.lexeme k) cause) = some (.lexeme kind t, rest))
    (hidem : e.found → e' = { e with rest := [] }) :
    t = c :: e.text ∧ some (e'.piece [c] (.lexeme k) cause) = some (.lexeme kind t, []) := by
  obtain ⟨hfound, rfl, rfl⟩ := Ending.piece_idem (Option.some.inj h)
  rw [hidem hfound]
  exact ⟨rfl, by simp [Ending.piece, hfound]⟩

/-- A lexeme is cut off no text that begins with a blank or a comment. -/
theorem Beginning.cut_eq_lexeme {c : Char} {cs t rest : List Char} {kind : Kind} {b : Beginning}
    (h : b.cut c cs = some (.lexeme kind t, rest)) :
    b = word ∨ b = number ∨ b = string ∨ b = rawString ∨ b = rune ∨ b = symbol := by
  cases b with
  | newline | blank | lineComment => cases h
  | blockComment =>
    rw [cut, Ending.piece] at h
    split at h <;> cases h
  | word | number | string | rawString | rune | symbol => simp

/-- **What a lexeme is read as**: a word, which goes up to the first character of another class, a
literal, or an operator. -/
theorem Piece.sort_of_next {c : Char} {cs t rest : List Char} {kind : Kind}
    (h : Piece.next c cs = some (.lexeme kind t, rest)) :
    ((isLetter c || c = '_') = true ∧ cs.dropWhile isNameChar = rest ∧
        kind = .ofWord (String.ofList t)) ∨
      kind ∈ [.number, .string, .rune] ∨ (t, kind) ∈ operators := by
  have ending {e : Ending} {opening : List Char} {k : Kind} {cause : Cause}
      (hpiece : some (e.piece opening (.lexeme k) cause) = some (.lexeme kind t, rest)) : kind = k :=
    (Ending.piece_idem (Option.some.inj hpiece)).2.1
  rw [Piece.next_eq_cut] at h
  obtain hbegins | hbegins | hbegins | hbegins | hbegins | hbegins := Beginning.cut_eq_lexeme h
  all_goals rw [hbegins] at h
  · have hword : Beginning.word.Holds c cs := hbegins ▸ Beginning.holds_of c cs
    cases h
    exact .inl ⟨hword, rfl, rfl⟩
  · cases h
    exact .inr (.inl (by simp))
  · exact .inr (.inl (by simp [ending h]))
  · exact .inr (.inl (by simp [ending h]))
  · exact .inr (.inl (by simp [ending h]))
  · obtain ⟨op, hop, heq⟩ := Option.map_eq_some_iff.1 h
    cases heq
    exact .inr (.inr (List.mem_of_find?_eq_some hop))

/-- What is cut off begins like the text, if it is no comment. A number may begin with a dot only if a
digit is kept behind it. -/
theorem Beginning.of_prefix {c : Char} {cs u : List Char} (hu : u <+: cs)
    (hline : of c cs ≠ lineComment) (hblock : of c cs ≠ blockComment)
    (hnumber : u = [] → c = '.' → of c cs ≠ number) : of c u = of c cs := by
  obtain ⟨v, rfl⟩ := hu
  refine (of_append fun hnil d hd => ⟨?_, fun hdot => ?_⟩).symm
  · subst hnil
    rintro rfl
    obtain ⟨v, rfl⟩ := List.head?_eq_some_iff.1 (Option.mem_def.1 hd)
    refine ⟨?_, ?_⟩
    · rintro rfl
      exact hline rfl
    · rintro rfl
      exact hblock rfl
  · by_contra hdigit
    subst hnil
    obtain ⟨v, rfl⟩ := List.head?_eq_some_iff.1 (Option.mem_def.1 hd)
    exact hnumber rfl hdot (hdot ▸ of_dot (by simpa using hdigit) v)

/-- **A lexeme of a text is a word of its kind.** -/
theorem Piece.stands_alone {c : Char} {cs t rest : List Char} {kind : Kind}
    (h : Piece.next c cs = some (.lexeme kind t, rest)) : (Piece.lexeme kind t).Stands [] := by
  rw [Piece.next_eq_cut] at h
  have hsort := Beginning.cut_eq_lexeme h
  -- what is cut off begins like the text, and the same rule finds its end
  suffices hcut : ∃ u, t = c :: u ∧ u <+: cs ∧
      (u = [] → c = '.' → Beginning.of c cs ≠ .number) ∧
      (Beginning.of c cs).cut c u = some (.lexeme kind t, []) by
    obtain ⟨u, rfl, hu, hnumber, hcut⟩ := hcut
    have hsame : Beginning.of c u = Beginning.of c cs := by
      refine Beginning.of_prefix hu ?_ ?_ hnumber
      · intro hline
        simp [hline] at hsort
      · intro hblock
        simp [hblock] at hsort
    exact Piece.stands_of_next (by rw [Piece.next_eq_cut, hsame, hcut])
  obtain hbegins | hbegins | hbegins | hbegins | hbegins | hbegins := hsort
  all_goals rw [hbegins] at h ⊢
  · cases h
    refine ⟨cs.takeWhile isNameChar, rfl, List.takeWhile_prefix _, by simp, ?_⟩
    rw [Beginning.cut, (takeWhile_idem _ _).1, (takeWhile_idem _ _).2]
  · have hstarts : Beginning.number.Holds c cs := hbegins ▸ Beginning.holds_of c cs
    cases h
    refine ⟨(numberRest false c cs).1, rfl, ⟨_, numberRest_text false c cs⟩, fun hnil hdot => ?_, ?_⟩
    · -- the digit behind the dot belongs to the number
      subst hdot
      cases cs with
      | nil => cases hstarts
      | cons d ds =>
        have hdigit : d.isDigit = true := by
          simpa [Beginning.Holds, startsNumber, Char.isDigit] using hstarts
        have hcont : continuesNumber false '.' d = true := by
          simp [continuesNumber, isNameChar, isNumeral_of_isDigit hdigit]
        simp [numberRest, hcont] at hnil
    · rw [Beginning.cut, numberRest_idem]
  · obtain ⟨rfl, hcut⟩ := Ending.some_piece_idem h literalEnd_idem
    exact ⟨_, rfl, ⟨_, literalEnd_text c cs⟩, by simp, hcut⟩
  · obtain ⟨rfl, hcut⟩ := Ending.some_piece_idem h rawEnd_idem
    exact ⟨_, rfl, ⟨_, rawEnd_text cs⟩, by simp, hcut⟩
  · obtain ⟨rfl, hcut⟩ := Ending.some_piece_idem h literalEnd_idem
    exact ⟨_, rfl, ⟨_, literalEnd_text c cs⟩, by simp, hcut⟩
  · obtain ⟨op, hfound, heq⟩ := Option.map_eq_some_iff.1 h
    cases heq
    obtain hnil | ⟨u, hu, hpre⟩ := List.prefix_cons_iff.1 (prefix_of_operator? hfound)
    · exact absurd hnil (operator?_ne_nil hfound)
    · refine ⟨u, hu, hpre, by simp, ?_⟩
      rw [Beginning.cut, ← hu, operator?_idem hfound]
      simp

end Multicast.Source
