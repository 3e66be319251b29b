import Mathlib.Data.List.TakeWhile
import Multicast.Proofs.Parts
import Multicast.Proofs.Pieces

/-!
# Well-formed types and how they are spelled

A type is well-formed if every type in it is: `GoType.Proper` asks of the one constructor that its
names and literals are words of the language, that its parameter lists have all names or none, and
that three dots have a slice to stand for. What names and array lengths are admitted depends on the
use, and is left open.

The text of a well-formed type is cut into `GoType.pieces` wherever it stands, unless a name runs on
behind it (`Stable`). Stability is closed under the few ways in which types are put together, so
`GoType.WellFormed.stable` follows the definition of `GoType.pieces`.

## Stability, constructor by constructor

A text that is put together from stable parts is stable if what stands between the parts divides them: a
bracket, a blank, a comma. Types are written so that this is always the case. Where a type ends in a name,
the text may go on with anything that continues no name, and this is the one thing that is asked of what
follows. For each constructor there is a lemma on its pieces, and the theorem is the induction over types
that uses one of them in each case.
-/

namespace Multicast

open Source

open Text (isLetter)

/-! ### Well-formed types

The condition on one constructor is separated from the condition on the types inside it, since it is the
former that differs between the constructors. -/

/-- All parameters have names, or none has. -/
def Uniform (params : List Param) : Prop :=
  (∀ p ∈ params, p.name = "") ∨ ∀ p ∈ params, Kind.identifier.Writes p.name

/-- What a signature has to be like apart from its types. -/
structure Signature.Proper (signature : Signature) : Prop where
  params : Uniform signature.params
  results : Uniform signature.results
  variadic : signature.variadic → ∃ p ∈ signature.params.getLast?, p.type.isSlice

/-- Whether a type can be embedded in a struct. -/
def GoType.isEmbeddable : GoType → Bool
  | .basic _ | .named _ _ | .pointer _ => true
  | _ => false

/-- What a field has to be like apart from its type. -/
structure Field.Proper (field : Field) : Prop where
  name : ∀ n ∈ field.name, Kind.identifier.Writes n
  embedded : field.name = none → field.type.isEmbeddable
  tag : ∀ t ∈ field.tag, Kind.string.Writes t

namespace GoType

section

variable (named : PackageId → String → Prop) (length : String → Prop)

/-- What a type has to be like apart from the types inside it. -/
def Proper : GoType → Prop
  | .basic name => name ∈ predeclared
  | .named package name => named package name
  | .array n _ => length n
  | .func signature => signature.Proper
  | .interface body =>
    ∀ m ∈ body.methods, Kind.identifier.Writes m.name ∧ m.signature.Proper
  | .struct fields => ∀ f ∈ fields, f.Proper
  | .pointer _ | .slice _ | .map _ _ | .chan _ _ => True

/-- **Well-formed types**, with the declared types and array lengths that are admitted. -/
def WellFormed (t : GoType) : Prop :=
  ∀ s, t.Has s → s.Proper named length

end

variable {named named' : PackageId → String → Prop} {length length' : String → Prop}

/-- A type is well-formed if its constructor is and the types inside it are: what proofs by
induction unfold. -/
theorem wellFormed_iff {t : GoType} :
    t.WellFormed named length ↔
      t.Proper named length ∧ ∀ s ∈ t.components, s.WellFormed named length := by
  constructor
  · exact fun h => ⟨h t (.self t), fun s hs r hr => h r (.inside hs hr)⟩
  · rintro ⟨ht, hparts⟩ s hs
    rcases has_iff.1 hs with rfl | ⟨c, hc, hs⟩
    · exact ht
    · exact hparts c hc s hs

section

variable {t key value : GoType}

@[simp] theorem wellFormed_basic {name : String} :
    (basic name).WellFormed named length ↔ name ∈ predeclared := by
  rw [wellFormed_iff]
  simp [components, Proper]

@[simp] theorem wellFormed_named {package : PackageId} {name : String} :
    (GoType.named package name).WellFormed named length ↔ named package name := by
  rw [wellFormed_iff]
  simp [components, Proper]

@[simp] theorem wellFormed_pointer :
    (pointer t).WellFormed named length ↔ t.WellFormed named length := by
  rw [wellFormed_iff]
  simp [components, Proper]

@[simp] theorem wellFormed_slice :
    (slice t).WellFormed named length ↔ t.WellFormed named length := by
  rw [wellFormed_iff]
  simp [components, Proper]

@[simp] theorem wellFormed_array {n : String} :
    (array n t).WellFormed named length ↔ length n ∧ t.WellFormed named length := by
  rw [wellFormed_iff]
  simp [components, Proper]

@[simp] theorem wellFormed_map :
    (map key value).WellFormed named length ↔
      key.WellFormed named length ∧ value.WellFormed named length := by
  rw [wellFormed_iff]
  simp [components, Proper]

@[simp] theorem wellFormed_chan {direction : Direction} :
    (chan direction t).WellFormed named length ↔ t.WellFormed named length := by
  rw [wellFormed_iff]
  simp [components, Proper]

/-- In a signature the lists are to be looked at, too, and not only the types in them. -/
@[simp] theorem wellFormed_func {signature : Signature} :
    (func signature).WellFormed named length ↔
      signature.Proper ∧ ∀ s ∈ signature.types, s.WellFormed named length := by
  rw [wellFormed_iff]
  simp [components, Proper]

end

namespace WellFormed

theorem proper {t : GoType} (h : t.WellFormed named length) : t.Proper named length :=
  h t (.self t)

/-- What is inside a well-formed type is well-formed. -/
theorem component {t s : GoType} (h : t.WellFormed named length) (hs : s ∈ t.components) :
    s.WellFormed named length := (wellFormed_iff.1 h).2 s hs

/-- Being well-formed depends on the declared types and the array lengths that occur. -/
theorem imp {t : GoType} (h : t.WellFormed named length)
    (hnamed : ∀ package name, t.Has (.named package name) → named package name →
      named' package name)
    (hlength : ∀ n elem, t.Has (.array n elem) → length n → length' n) :
    t.WellFormed named' length' := by
  intro s hs
  have hproper := h s hs
  cases s with
  | named package name => exact hnamed package name hs hproper
  | array n elem => exact hlength n elem hs hproper
  | _ => exact hproper

end WellFormed

end GoType

/-! ### Moving well-formed types -/

section

variable {f : GoType → GoType}

/-- Names are given to parameters whatever their types become. -/
theorem Uniform.map {params : List Param} (h : Uniform params) :
    Uniform (params.map (Param.mapType f)) := by
  refine h.imp (fun h p hp => ?_) fun h p hp => ?_
  all_goals
    obtain ⟨q, hq, rfl⟩ := List.mem_map.1 hp
    exact h q hq

/-- A signature stays well-formed under changes that leave slices slices. -/
theorem Signature.Proper.map {s : Signature} (h : s.Proper)
    (hslice : ∀ t, (f t).isSlice = t.isSlice) : (s.mapTypes f).Proper where
  params := h.params.map
  results := h.results.map
  variadic hvariadic := by
    obtain ⟨p, hp, hpslice⟩ := h.variadic hvariadic
    refine ⟨p.mapType f, ?_, (hslice p.type).trans hpslice⟩
    simp [Signature.mapTypes, List.getLast?_map, Option.mem_def.1 hp]

namespace GoType

variable {named named' : PackageId → String → Prop} {length : String → Prop}
  {move : PackageId → String → PackageId}

/-- A constructor stays well-formed under changes of what is inside it that keep slices and what can
be embedded. A named type is left out, because nothing is inside it. -/
theorem Proper.map {t : GoType} (h : t.Proper named length)
    (hnamed : ∀ package name, t ≠ .named package name) (hslice : ∀ t, (f t).isSlice = t.isSlice)
    (hembeddable : ∀ t, (f t).isEmbeddable = t.isEmbeddable) :
    (t.mapComponents f).Proper named' length := by
  cases t with
  | named package name => exact absurd rfl (hnamed package name)
  | basic | pointer | slice | array | map | chan => exact h
  | func s => exact Signature.Proper.map h hslice
  | interface body =>
    intro m hm
    obtain ⟨n, hn, rfl⟩ := List.mem_map.1 hm
    exact ⟨(h n hn).1, (h n hn).2.map hslice⟩
  | struct fields =>
    intro field hfield
    obtain ⟨inner, hinner, rfl⟩ := List.mem_map.1 hfield
    have hproper := h inner hinner
    exact ⟨hproper.name, fun hnone => (hembeddable _).trans (hproper.embedded hnone), hproper.tag⟩

/-- A type that is moved to another package is a slice if it was one. -/
theorem isSlice_relocate (t : GoType) : (t.relocate move).isSlice = t.isSlice := by
  rcases t.named_or_relocate move with ⟨package, name, rfl⟩ | h
  · rfl
  · rw [h]
    cases t <;> rfl

/-- A type that is moved to another package can be embedded if it could be. -/
theorem isEmbeddable_relocate (t : GoType) : (t.relocate move).isEmbeddable = t.isEmbeddable := by
  rcases t.named_or_relocate move with ⟨package, name, rfl⟩ | h
  · rfl
  · rw [h]
    cases t <;> rfl

/-- A moved type is well-formed if its declared types are admitted where they are moved to. -/
theorem WellFormed.relocate {t : GoType} (h : t.WellFormed named length)
    (hmove : ∀ package name, t.Has (.named package name) → named package name →
      named' (move package name) name) : (t.relocate move).WellFormed named' length := by
  intro s hs
  obtain ⟨r, hr, rfl⟩ := has_relocate.1 hs
  by_cases hnamed : ∃ package name, r = .named package name
  · obtain ⟨package, name, rfl⟩ := hnamed
    exact hmove package name hr (h _ hr)
  · have hnamed' : ∀ package name, r ≠ .named package name := fun package name heq =>
      hnamed ⟨package, name, heq⟩
    rw [relocate_eq hnamed']
    exact (h r hr).map hnamed' isSlice_relocate isEmbeddable_relocate

end GoType

end

/-! ### Pieces that stand before every text, or every text that continues no name -/

namespace Source

/-- A text that does not continue a name. -/
def Clear (rest : List Char) : Prop :=
  ∀ d ∈ rest.head?, isNameChar d = false

/-- The characters that types are divided by. -/
def dividers : List Char := [' ', '*', '.', ',', ';', '(', ')', '[', ']', '\x7b', '\x7d', '<']

/-- A divider ends every name. -/
theorem isNameChar_divider {c : Char} (h : c ∈ dividers) : isNameChar c = false :=
  isNameChar_of_all (by decide) h

/-- A text that begins with a character types are divided by. -/
def Divided (s : List Char) : Prop :=
  ∃ c ∈ s.head?, c ∈ dividers

/-- A text that begins with a divider continues no name, whatever is behind it. -/
theorem Divided.clear {s : List Char} (h : Divided s) (rest : List Char) : Clear (s ++ rest) := by
  obtain ⟨c, hc, hdivider⟩ := h
  cases s with
  | nil => cases hc
  | cons b bs =>
    intro d hd
    obtain rfl : b = c := by simpa using hc
    obtain rfl : b = d := by simpa using hd
    exact isNameChar_divider hdivider

theorem divided_cons {c : Char} {cs : List Char} (h : c ∈ dividers) : Divided (c :: cs) :=
  ⟨c, rfl, h⟩

/-- Pieces of one line that stand before every text. -/
structure Free (ps : List Piece) : Prop where
  inline : ∀ p ∈ ps, p.isInline
  stand : ∀ rest, Stand ps rest

/-- Pieces of one line that stand before every text that does not continue a name. -/
structure Stable (ps : List Piece) : Prop where
  inline : ∀ p ∈ ps, p.isInline
  stand : ∀ rest, Clear rest → Stand ps rest

/-- What stands before every text stands before some. -/
theorem Free.stable {ps : List Piece} (h : Free ps) : Stable ps :=
  ⟨h.inline, fun rest _ => h.stand rest⟩

theorem free_nil : Free [] :=
  ⟨by simp, fun _ => trivial⟩

/-- Pieces of one line are put together in one line. -/
theorem inline_append {ps qs : List Piece} (hp : ∀ p ∈ ps, p.isInline)
    (hq : ∀ p ∈ qs, p.isInline) : ∀ p ∈ ps ++ qs, p.isInline :=
  fun p h => (List.mem_append.1 h).elim (hp p) (hq p)

/-- The text of pieces in a row is made of their texts. -/
theorem textOf_append (ps qs : List Piece) : textOf (ps ++ qs) = textOf ps ++ textOf qs :=
  List.flatMap_append

/-- Pieces that stand before every text stand in front of each other. -/
theorem Free.append {ps qs : List Piece} (hp : Free ps) (hq : Free qs) : Free (ps ++ qs) :=
  ⟨inline_append hp.inline hq.inline, fun rest => stand_append.2 ⟨hp.stand _, hq.stand rest⟩⟩

/-- In front of other pieces only those behind them matter. -/
theorem Free.append_stable {ps qs : List Piece} (hp : Free ps) (hq : Stable qs) :
    Stable (ps ++ qs) :=
  ⟨inline_append hp.inline hq.inline, fun rest hrest =>
    stand_append.2 ⟨hp.stand _, hq.stand rest hrest⟩⟩

/-- A name does not run on into a divider, and what stands before every text behind it is still
free. -/
theorem Stable.append_free {ps qs : List Piece} (hp : Stable ps) (hq : Free qs)
    (hdivided : Divided (textOf qs)) : Free (ps ++ qs) :=
  ⟨inline_append hp.inline hq.inline, fun rest =>
    stand_append.2 ⟨hp.stand _ (hdivided.clear rest), hq.stand rest⟩⟩

/-- **Stable pieces are put together** where the second ones begin with a divider. -/
theorem Stable.append {ps qs : List Piece} (hp : Stable ps) (hq : Stable qs)
    (hdivided : Divided (textOf qs)) : Stable (ps ++ qs) :=
  ⟨inline_append hp.inline hq.inline, fun rest hrest =>
    stand_append.2 ⟨hp.stand _ (hdivided.clear rest), hq.stand rest hrest⟩⟩

/-- A literal piece that no character sticks to. -/
theorem free_lexeme {kind : Kind} {t : List Char} (h : (Piece.lexeme kind t).Stands [])
    (hsticks : ∀ d, (Piece.lexeme kind t).sticksTo d = false) : Free [.lexeme kind t] := by
  refine ⟨by simp [Piece.isInline], fun rest => ⟨?_, trivial⟩⟩
  exact h.before (by simp) fun d _ => hsticks d

/-- The operators that types are written with and that begin no other operator. -/
def delimiters : List (Kind × List Char) := [
  (.leftParen, ['(']), (.rightParen, [')']), (.leftBracket, ['[']), (.rightBracket, [']']),
  (.leftBrace, ['\x7b']), (.rightBrace, ['\x7d']), (.comma, [',']), (.semicolon, [';']),
  (.ellipsis, ['.', '.', '.']), (.arrow, ['<', '-'])]

/-- A delimiter stands before every text. -/
theorem free_delimiter {kind : Kind} {t : List Char} (h : (kind, t) ∈ delimiters) :
    Free [.lexeme kind t] := by
  have hstands : (delimiters.all fun p => (Piece.lexeme p.1 p.2).Stands []) = true := by
    decide +kernel
  have hlongest : (delimiters.all fun p => p.1.isSymbol && p.2 != ['/'] && p.2 != ['.'] &&
      operators.all fun op => !p.2.isPrefixOf op.1 || op.1.length ≤ p.2.length) = true := by
    decide
  have hlong := List.all_eq_true.1 hlongest (kind, t) h
  simp only [Bool.and_eq_true, bne_iff_ne] at hlong
  obtain ⟨⟨⟨hsymbol, hslash⟩, hdot⟩, hops⟩ := hlong
  refine free_lexeme (of_decide_eq_true (List.all_eq_true.1 hstands (kind, t) h)) fun d => ?_
  have hnone : (operators.any fun op => (t ++ [d]).isPrefixOf op.1) = false := by
    rw [List.any_eq_false]
    intro op hop hprefix
    rw [List.isPrefixOf_iff_prefix] at hprefix
    have hlen := hprefix.length_le
    have hself : t.isPrefixOf op.1 :=
      List.isPrefixOf_iff_prefix.2 ((List.prefix_append t [d]).trans hprefix)
    have hle := List.all_eq_true.1 hops op hop
    rw [hself] at hle
    simp at hlen hle
    omega
  simp [Piece.sticksTo, hsymbol, hnone, hslash, hdot]

/-- A string literal ends with its own quote. -/
theorem free_string {t : String} (h : Kind.string.Writes t) :
    Free [.lexeme .string t.toList] :=
  free_lexeme h fun _ => rfl

/-- A space is a piece by itself. -/
theorem free_space : Free [.space] :=
  ⟨by simp [Piece.isInline], fun _ => ⟨Piece.stands_of_next (c := ' ') rfl, trivial⟩⟩

theorem free_leftParen : Free [.leftParen] := free_delimiter (by decide)

theorem free_rightParen : Free [.rightParen] := free_delimiter (by decide)

theorem free_leftBracket : Free [.leftBracket] := free_delimiter (by decide)

theorem free_rightBracket : Free [.rightBracket] := free_delimiter (by decide)

theorem free_leftBrace : Free [.leftBrace] := free_delimiter (by decide)

theorem free_rightBrace : Free [.rightBrace] := free_delimiter (by decide)

theorem free_comma : Free [.comma] := free_delimiter (by decide)

theorem free_semicolon : Free [.semicolon] := free_delimiter (by decide)

theorem free_dots : Free [.dots] := free_delimiter (by decide)

theorem free_arrow : Free [.arrow] := free_delimiter (by decide)

/-! ### Words that stand

Which words the printer writes is known, but for names, tags and lengths. Each of them is checked to stand
alone by evaluating how it is cut. -/

/-- A name or a keyword stands before a text that does not continue it. -/
theorem stable_word {kind : Kind} {word : String} (h : kind.Writes word)
    (hkind : kind = .identifier ∨ ∃ k, kind = .keyword k) :
    Stable [.lexeme kind word.toList] := by
  refine ⟨by simp [Piece.isInline], fun rest hrest => ⟨?_, trivial⟩⟩
  refine Piece.Stands.before h (by simp) fun d hd => ?_
  rcases hkind with rfl | ⟨k, rfl⟩
  · exact hrest d hd
  · exact hrest d hd

/-- A name stands before all that does not continue it. -/
theorem stable_name {n : String} (h : Kind.identifier.Writes n) : Stable [.name n] :=
  stable_word h (.inl rfl)

/-- A keyword is a word like a name. -/
theorem stable_key (k : Keyword) : Stable [.key k] := by
  have hall : (Keyword.all.all fun k => (Kind.keyword k).Writes k.text) = true := by decide +kernel
  exact stable_word (of_decide_eq_true (List.all_eq_true.1 hall k k.mem_all)) (.inr ⟨k, rfl⟩)

/-- The code points of the letters that keywords and predeclared names are written in. -/
theorem isLower_range {c : Char} (h : c.isLower = true) : 97 ≤ c.toNat ∧ c.toNat ≤ 122 := by
  have hrange : (decide (c.val ≥ 97) && decide (c.val ≤ 122)) = true := h
  simpa [UInt32.le_iff_toNat_le] using hrange

/-- These letters are letters of names. -/
theorem isLetter_of_isLower {c : Char} (h : c.isLower = true) : isLetter c = true := by
  have hmem : ((97, 122) : Nat × Nat) ∈ Text.letterRanges := .tail _ (.head _)
  exact List.any_eq_true.2 ⟨_, hmem, by simpa using isLower_range h⟩

section

variable {c : Char} {cs rest : List Char}

/-- A word is cut off a text up to where the characters of names end. -/
theorem next_word (hc : (Text.isLetter c || c = '_') = true) (hcs : ∀ d ∈ cs, isNameChar d = true)
    (hrest : ∀ d ∈ rest.head?, isNameChar d = false) :
    Piece.next c (cs ++ rest) =
      some (.lexeme (.ofWord (String.ofList (c :: cs))) (c :: cs), rest) := by
  have hname : isNameChar c = true := isNameChar_of_first hc
  have hne := isNameChar_ne hname
  simp only [List.mem_cons, List.not_mem_nil, or_false, not_or] at hne
  obtain ⟨htake, hdrop⟩ := span_append (P := isNameChar) (t := cs) (s := rest) fun _ => hrest
  rw [List.takeWhile_eq_self_iff.2 hcs] at htake
  rw [List.dropWhile_eq_nil_iff.2 hcs, List.nil_append] at hdrop
  rw [Piece.next, if_neg hne.1, if_neg (by simp [isBlank_of_isNameChar hname]),
    if_neg (by simp [hne.2.1]), if_neg (by simp [hne.2.1]), if_pos hc, htake, hdrop]

/-- **A word that is no keyword is a name.** -/
theorem writes_of_word (hc : (Text.isLetter c || c = '_') = true) (hcs : ∀ d ∈ cs, isNameChar d = true)
    (hkind : Kind.ofWord (String.ofList (c :: cs)) = .identifier) :
    Kind.identifier.Writes (String.ofList (c :: cs)) := by
  have hnext : Piece.next _ (cs ++ []) = _ := next_word hc hcs (by simp)
  have hstands := Piece.stands_of_next hnext
  rw [hkind, ← String.toList_ofList (l := c :: cs)] at hstands
  exact hstands

end

/-- A name of small letters and digits. -/
def isPlainName (text : List Char) : Bool :=
  text.head?.any Char.isLower && text.all fun c => c.isLower || c.isDigit

/-- A name of small letters and digits is a name, unless it is a keyword. -/
theorem writes_of_plain {n : String} (h : isPlainName n.toList = true)
    (hkeyword : Keyword.ofText? n = none) : Kind.identifier.Writes n := by
  obtain ⟨hhead, hall⟩ := Bool.and_eq_true_iff.1 h
  obtain ⟨c, cs, htext⟩ : ∃ c cs, n.toList = c :: cs := by
    cases htext : n.toList with
    | nil => simp [htext] at hhead
    | cons c cs => exact ⟨c, cs, rfl⟩
  have hn : String.ofList (c :: cs) = n := by rw [← htext, String.ofList_toList]
  have hc : c.isLower = true := by simpa [htext] using hhead
  have hchars : ∀ d ∈ cs, isNameChar d = true := by
    intro d hd
    have hclass : d.isLower = true ∨ d.isDigit = true := by
      simpa using List.all_eq_true.1 hall d (by simp [htext, hd])
    rcases hclass with hd | hd
    · simp [isNameChar, isLetter_of_isLower hd]
    · simp [isNameChar, isNumeral_of_isDigit hd]
  rw [← hn]
  refine writes_of_word (by simp [isLetter_of_isLower hc]) hchars ?_
  rw [Kind.ofWord, hn, hkeyword]

/-- A name begins with a letter or an underscore. -/
theorem head_of_writes {n : String} (h : Kind.identifier.Writes n) :
    ∃ c cs, n.toList = c :: cs ∧ (isLetter c || c = '_') = true ∧ ∀ d ∈ cs, isNameChar d := by
  obtain ⟨c, cs, htext, hnext⟩ := Piece.Stands.next h
  refine ⟨c, cs, by simpa using htext, ?_⟩
  rcases Piece.sort_of_next hnext with ⟨hc, hall, -⟩ | hliteral | hop
  · exact ⟨hc, List.dropWhile_eq_nil_iff.1 hall⟩
  · simp at hliteral
  · cases isSymbol_of_mem hop

theorem not_writes_empty : ¬Kind.identifier.Writes "" := by decide

/-- A name consists of characters of names. -/
theorem isNameChar_of_writes {n : String} (h : Kind.identifier.Writes n) :
    ∀ c ∈ n.toList, isNameChar c = true := by
  obtain ⟨c, cs, htext, hc, hcs⟩ := head_of_writes h
  rw [htext]
  exact List.forall_mem_cons.2 ⟨isNameChar_of_first hc, hcs⟩

/-- A name has no dots in it. -/
theorem not_writes_of_dot {n : String} (h : '.' ∈ n.toList) : ¬Kind.identifier.Writes n := by
  intro hn
  have hdot : isNameChar '.' = false := isNameChar_of_lt (by decide)
  rw [isNameChar_of_writes hn '.' h] at hdot
  cases hdot

/-- A name has no newline in it. -/
theorem newline_not_mem_of_writes {n : String} (h : Kind.identifier.Writes n) :
    '\n' ∉ n.toList := by
  intro hmem
  have hnewline : isNameChar '\n' = false := isNameChar_of_lt (by decide)
  rw [isNameChar_of_writes h '\n' hmem] at hnewline
  cases hnewline

/-- No letter is a digit, so a name is not taken for a number. -/
theorem isDigit_of_letter {c : Char} (h : (isLetter c || c = '_') = true) : c.isDigit = false := by
  rw [← Bool.not_eq_true]
  intro hdigit
  have hrange : 48 ≤ c.toNat ∧ c.toNat ≤ 57 := by
    simpa [Char.isDigit, UInt32.le_iff_toNat_le] using hdigit
  rcases Bool.or_eq_true_iff.1 h with hletter | hunderscore
  · rw [Text.isLetter_of_lt (by omega)] at hletter
    rcases Bool.or_eq_true_iff.1 hletter with hupper | hlower
    · have hbounds : c.val ≥ 65 ∧ c.val ≤ 90 := of_decide_eq_true hupper
      have hleast : 65 ≤ c.toNat := UInt32.le_iff_toNat_le.1 hbounds.1
      omega
    · have hleast := (isLower_range hlower).1
      omega
  · rw [of_decide_eq_true hunderscore] at hdigit
    cases hdigit

/-- An operator of one character sticks to those that may be second in an operator. -/
theorem sticksTo_single {kind : Kind} {c d : Char} {seconds : List Char} (hkind : kind.isSymbol)
    (hops : operators.all fun op =>
      op.1.head? ≠ some c || op.1.tail.head?.all (· ∈ seconds))
    (hd : d ∉ seconds) (hslash : c ≠ '/') (hdot : c = '.' → d.isDigit = false) :
    (Piece.lexeme kind [c]).sticksTo d = false := by
  have hnone : (operators.any fun op => [c, d].isPrefixOf op.1) = false := by
    rw [List.any_eq_false]
    intro op hop hprefix
    obtain ⟨u, hu⟩ := List.isPrefixOf_iff_prefix.1 hprefix
    have hsecond := List.all_eq_true.1 hops op hop
    simp [← hu, hd] at hsecond
  simp only [Piece.sticksTo, hkind, if_true, List.singleton_append, hnone, Bool.false_or]
  by_cases hc : c = '.'
  · simp [hc, hdot hc]
  · simp [hc, hslash]

/-- A dot stands before a name. -/
theorem stand_dot {n : String} (h : Kind.identifier.Writes n) (rest : List Char) :
    Stand [.dot] (n.toList ++ rest) := by
  obtain ⟨c, cs, htext, hc, -⟩ := head_of_writes h
  refine ⟨Piece.Stands.before (by decide) (by simp) fun d hd => ?_, trivial⟩
  obtain rfl : c = d := by simpa [htext] using hd
  have hne : c ∉ ['.'] := by
    rw [List.mem_singleton]
    rintro rfl
    rw [Text.isLetter_of_lt (by decide)] at hc
    cases hc
  exact sticksTo_single rfl (by decide) hne (by decide) fun _ => isDigit_of_letter hc

/-- A star stands before what does not begin with an equals sign. -/
theorem stand_star {s : List Char} (h : s.head? ≠ some '=') : Stand [.star] s := by
  refine ⟨Piece.Stands.before (by decide) (by simp) fun d hd => ?_, trivial⟩
  have hne : d ∉ ['='] := by
    rw [List.mem_singleton]
    rintro rfl
    exact h (by simpa using hd)
  exact sticksTo_single rfl (by decide) hne (by decide) fun h => absurd h (by decide)

/-- Characters that no token goes on with. -/
def breaks : List Char := [' ', ',', ';', '(', ')', '[', ']', '\x7b', '\x7d']

/-- A word stands before a character that no token goes on with. -/
theorem stand_before_break {kind : Kind} {word : String} (h : kind.Writes word) {d : Char}
    (hd : d ∈ breaks) (rest : List Char) : Stand [.lexeme kind word.toList] (d :: rest) := by
  refine ⟨Piece.Stands.before h (by simp) fun e he => ?_, trivial⟩
  obtain rfl : d = e := by simpa using he
  have hops : (operators.all fun op => breaks.all fun d => !op.1.tail.contains d) = true := by
    decide
  have hplain : (breaks.all fun d => !isNameChar d && !d.isDigit && !continuesSomeNumber d &&
      d ≠ '/' && d ≠ '*') = true := by
    simp only [continuesSomeNumber, isNameChar_eq_isNameCharFast]
    decide +kernel
  have hnot := List.all_eq_true.1 hplain d hd
  simp only [Bool.and_eq_true, Bool.not_eq_true', decide_eq_true_eq] at hnot
  obtain ⟨⟨⟨⟨hname, hdigit⟩, hnumber⟩, hslash⟩, hstar⟩ := hnot
  obtain ⟨c, cs, htext, -⟩ := Piece.Stands.next h
  have hword : word.toList = c :: cs := by simpa using htext
  have hnone : (operators.any fun op => (word.toList ++ [d]).isPrefixOf op.1) = false := by
    rw [List.any_eq_false]
    intro op hop hprefix
    obtain ⟨u, hu⟩ := List.isPrefixOf_iff_prefix.1 hprefix
    have hbreak := List.all_eq_true.1 (List.all_eq_true.1 hops op hop) d hd
    simp [← hu, hword] at hbreak
  by_cases hkind : kind.isSymbol
  · simp [Piece.sticksTo, hkind, hnone, hdigit, hslash, hstar]
  · cases kind with
    | number => exact hnumber
    | string | rune => rfl
    | identifier | keyword => exact hname
    | _ => exact absurd rfl hkind

/-- What stands in a row stands without its first piece. -/
theorem Stable.tail {p : Piece} {ps : List Piece} (h : Stable (p :: ps)) : Stable ps :=
  ⟨fun q hq => h.inline q (List.mem_cons_of_mem _ hq), fun rest hrest => (h.stand rest hrest).2⟩

/-- Pieces with stable ones between free separators are stable. -/
theorem stable_joined {separator : List Piece} (hfree : Free separator)
    (hdivided : Divided (textOf separator)) {pss : List (List Piece)} (h : ∀ ps ∈ pss, Stable ps) :
    Stable (joined separator pss) := by
  induction pss with
  | nil => exact free_nil.stable
  | cons ps pss ih =>
    have hps := h ps List.mem_cons_self
    cases pss with
    | nil => simpa [joined] using hps
    | cons qs pss =>
      have hrest := ih fun rs hrs => h rs (List.mem_cons_of_mem _ hrs)
      have hfirst := hps.append_free hfree hdivided
      simpa [joined, List.intercalate_cons_cons] using hfirst.append_stable hrest

/-- A list in parentheses stands before every text. -/
theorem free_list {pss : List (List Piece)} (h : ∀ ps ∈ pss, Stable ps) :
    Free (listPieces pss) := by
  have hjoined : Stable (joined [.comma, .space] pss) :=
    stable_joined (free_comma.append free_space) (divided_cons (by decide)) h
  have hopen := free_leftParen.append_stable hjoined
  simpa [listPieces] using hopen.append_free free_rightParen (divided_cons (by decide))

/-- A body in braces stands before every text. -/
theorem free_body {pss : List (List Piece)} (h : ∀ ps ∈ pss, Stable ps) :
    Free (bodyPieces pss) := by
  have hjoined : Stable (joined [.semicolon, .space] pss) :=
    stable_joined (free_semicolon.append free_space) (divided_cons (by decide)) h
  have hopen := free_leftBrace.append_stable hjoined
  simpa [bodyPieces] using hopen.append_free free_rightBrace (divided_cons (by decide))

/-- A parameter is its type, or its name and its type with a space between them. -/
theorem stable_param {n : String} (hn : n = "" ∨ Kind.identifier.Writes n) {ps : List Piece}
    (h : Stable ps) : Stable (paramPieces n ps) := by
  unfold paramPieces
  split
  · exact h
  next hne =>
    have hname := stable_name (hn.resolve_left fun h => hne (by simp [h]))
    exact (hname.append_free free_space (divided_cons (by decide))).append_stable h

end Source

/-! ### Parameters one by one

Parameters are stable if their types are; with names there is a blank between the two. -/

section

variable (qualifier : PackageId → String)

/-- Where no three dots are written, parameters are written one by one. -/
theorem Param.piecesAll_false (params : List Param) :
    Param.piecesAll qualifier false params =
      params.map fun p => paramPieces p.name (p.type.pieces qualifier) := by
  induction params with
  | nil => rfl
  | cons p params ih =>
    obtain ⟨name, type⟩ := p
    cases params with
    | nil => cases type <;> rfl
    | cons q params =>
      rw [Param.piecesAll_cons, ih]
      rfl

/-- The last parameter of a variadic list shows three dots. -/
theorem Param.piecesAll_true (params : List Param) (name : String) (elem : GoType) :
    Param.piecesAll qualifier true (params ++ [⟨name, .slice elem⟩]) =
      (params.map fun p => paramPieces p.name (p.type.pieces qualifier)) ++
        [paramPieces name (.dots :: elem.pieces qualifier)] := by
  induction params with
  | nil => rfl
  | cons p params ih =>
    obtain ⟨n, type⟩ := p
    obtain ⟨q, others, heq⟩ : ∃ q others, params ++ [⟨name, .slice elem⟩] = q :: others :=
      List.exists_cons_of_ne_nil (by simp)
    rw [List.cons_append, heq, Param.piecesAll_cons, ← heq, ih, List.map_cons, List.cons_append]

/-- Methods are written one by one. -/
theorem Method.piecesAll_eq (methods : List Method) :
    Method.piecesAll qualifier methods =
      methods.map fun m => .name m.name :: m.signature.pieces qualifier := by
  induction methods with
  | nil => rfl
  | cons m methods ih =>
    cases m
    rw [Method.piecesAll, ih, List.map_cons]

/-- Embedded types are written one by one. -/
theorem GoType.piecesAll_eq (types : List GoType) :
    GoType.piecesAll qualifier types = types.map (GoType.pieces qualifier) := by
  induction types with
  | nil => rfl
  | cons t types ih => rw [GoType.piecesAll, ih, List.map_cons]

/-- Fields are written one by one. -/
theorem Field.piecesAll_eq (fields : List Field) :
    Field.piecesAll qualifier fields =
      fields.map fun f => fieldPieces f.name (f.type.pieces qualifier) f.tag := by
  induction fields with
  | nil => rfl
  | cons f fields ih =>
    cases f
    rw [Field.piecesAll, ih, List.map_cons]

end

/-- The parameters of a proper variadic signature end in a slice. -/
theorem Signature.Proper.variadic_eq {signature : Signature} (h : signature.Proper)
    (hvariadic : signature.variadic) :
    ∃ params name elem, signature.params = params ++ [⟨name, .slice elem⟩] := by
  obtain ⟨p, hp, hslice⟩ := h.variadic hvariadic
  obtain ⟨params, hparams⟩ := List.getLast?_eq_some_iff.1 hp
  obtain ⟨name, type⟩ := p
  cases type with
  | slice elem => exact ⟨params, name, elem, hparams⟩
  | _ => cases hslice

/-- In a uniform list each parameter has no name or a proper one. -/
theorem Uniform.name {params : List Param} (h : Uniform params) {p : Param} (hp : p ∈ params) :
    p.name = "" ∨ Kind.identifier.Writes p.name :=
  h.imp (fun h => h p hp) fun h => h p hp

/-! ### Well-formed types are stable -/

/-- The predeclared types have names of the language. Their letters are enough to see this. -/
theorem writes_of_predeclared {name : String} (h : name ∈ predeclared) :
    Kind.identifier.Writes name := by
  have hall : (predeclared.all fun name =>
      isPlainName name.toList && (Keyword.ofText? name).isNone) = true := by decide +kernel
  have hname := List.all_eq_true.1 hall name h
  rw [Bool.and_eq_true, Option.isNone_iff_eq_none] at hname
  exact writes_of_plain hname.1 hname.2

/-- What a qualifier and the admitted names and lengths have to be like for types to be spelled in
words of the language. -/
structure Spelled (qualifier : PackageId → String) (named : PackageId → String → Prop)
    (length : String → Prop) : Prop where
  name : ∀ {package name}, named package name → Kind.identifier.Writes name
  qualifier : ∀ {package name}, named package name →
    qualifier package = "" ∨ Kind.identifier.Writes (qualifier package)
  length : ∀ {n}, length n → ∃ kind : Kind, kind.Writes n

section

variable {qualifier : PackageId → String} {named : PackageId → String → Prop}
  {length : String → Prop}

/-- A name does not run on into a dot, and the dot does not run on into a name, as it would into a
digit. -/
theorem stable_dotted {q n : String} (hq : Kind.identifier.Writes q)
    (hn : Kind.identifier.Writes n) : Stable [.name q, .dot, .name n] := by
  have hname := stable_name hn
  have hdot : Stable [.dot, .name n] := by
    refine ⟨by simp [Piece.isInline], fun rest hrest => ⟨?_, hname.stand rest hrest⟩⟩
    have hstand := (stand_dot hn rest).1
    simpa [textOf] using hstand
  exact (stable_name hq).append hdot (divided_cons (by decide))

/-- A type name is stable with a qualifier and without one. -/
theorem stable_qualified {q n : String} (hq : q = "" ∨ Kind.identifier.Writes q)
    (hn : Kind.identifier.Writes n) : Stable (qualifiedPieces q n) := by
  unfold qualifiedPieces
  split
  · exact stable_name hn
  next hne => exact stable_dotted (hq.resolve_left fun h => hne (by simp [h])) hn

/-- A parameter or a result is stable if its type is. -/
theorem Signature.Proper.stable_paramPieces {s : Signature} (h : s.Proper)
    (htypes : ∀ t ∈ s.types, Stable (t.pieces qualifier)) {p : Param}
    (hp : p ∈ s.params ∨ p ∈ s.results) : Stable (paramPieces p.name (p.type.pieces qualifier)) :=
  stable_param (hp.elim h.params.name h.results.name)
    (htypes _ (Signature.mem_types.2 (hp.imp (⟨p, ·, rfl⟩) (⟨p, ·, rfl⟩))))

/-- Parameters are stable, the last one behind dots too. -/
theorem Signature.Proper.stable_params {s : Signature} (h : s.Proper)
    (htypes : ∀ t ∈ s.types, Stable (t.pieces qualifier)) :
    ∀ qs ∈ Param.piecesAll qualifier s.variadic s.params, Stable qs := by
  intro qs hqs
  cases hvariadic : s.variadic with
  | false =>
    rw [hvariadic, Param.piecesAll_false] at hqs
    obtain ⟨p, hp, rfl⟩ := List.mem_map.1 hqs
    exact h.stable_paramPieces htypes (.inl hp)
  | true =>
    obtain ⟨params, name, elem, heq⟩ := h.variadic_eq hvariadic
    rw [hvariadic, heq, Param.piecesAll_true] at hqs
    rcases List.mem_append.1 hqs with hqs | hqs
    · obtain ⟨p, hp, rfl⟩ := List.mem_map.1 hqs
      exact h.stable_paramPieces htypes (.inl (by simp [heq, hp]))
    · -- dots stand for the brackets of the slice that the type is
      obtain rfl := List.mem_singleton.1 hqs
      have hmem : ⟨name, .slice elem⟩ ∈ s.params := by simp [heq]
      have hslice := htypes (.slice elem) (Signature.mem_types.2 (.inl ⟨_, hmem, rfl⟩))
      have helem : Stable (elem.pieces qualifier) := hslice.tail.tail
      exact stable_param (h.params.name hmem) (free_dots.append_stable helem)

/-- **A signature is stable** if the types in it are. -/
theorem Signature.Proper.stable {s : Signature} (h : s.Proper)
    (htypes : ∀ t ∈ s.types, Stable (t.pieces qualifier)) : Stable (s.pieces qualifier) := by
  have hresults : ∀ qs ∈ Param.piecesAll qualifier false s.results, Stable qs := by
    intro qs hqs
    rw [Param.piecesAll_false] at hqs
    obtain ⟨p, hp, rfl⟩ := List.mem_map.1 hqs
    exact h.stable_paramPieces htypes (.inr hp)
  have hpieces : s.pieces qualifier =
      listPieces (Param.piecesAll qualifier s.variadic s.params) ++
        resultPieces s.results (Param.piecesAll qualifier false s.results) := by
    cases s
    rfl
  rw [hpieces]
  refine (free_list (h.stable_params htypes)).append_stable ?_
  -- a single result without a name needs no parentheses, and no result no text at all
  unfold resultPieces
  split
  next type qs _ heq => exact free_space.append_stable (hresults qs (by simp [heq]))
  next => exact free_nil.stable
  next => exact (free_space.append (free_list hresults)).stable

namespace GoType

/-- No type begins with an equals sign. -/
theorem WellFormed.head_pieces {t : GoType} (hspelled : Spelled qualifier named length)
    (h : t.WellFormed named length) :
    ∃ c ∈ (textOf (t.pieces qualifier)).head?, c ≠ '=' := by
  have hname {n : String} (hn : Kind.identifier.Writes n) (rest : List Char) :
      ∃ c ∈ (n.toList ++ rest).head?, c ≠ '=' := by
    obtain ⟨c, cs, htext, hc, -⟩ := head_of_writes hn
    refine ⟨c, by simp [htext], ?_⟩
    rintro rfl
    rw [Text.isLetter_of_lt (by decide)] at hc
    cases hc
  cases t with
  | basic name => simpa [pieces] using hname (writes_of_predeclared h.proper) []
  | named package name =>
    have hn := hspelled.name h.proper
    rw [pieces, qualifiedPieces]
    split
    next => simpa using hname hn []
    next hne =>
      have hq := (hspelled.qualifier h.proper).resolve_left fun h => hne (by simp [h])
      simpa using hname hq ('.' :: name.toList)
  | chan direction elem =>
    cases direction with
    | both => cases hr : elem.isReceiver <;> simp [pieces, chanPieces, hr, Keyword.text]
    | send | receive => simp [pieces, chanPieces, Keyword.text]
  | interface body => cases body; simp [pieces, Keyword.text]
  | _ => simp [pieces, Keyword.text]

/-! ### One constructor at a time

In the lemmas below the parts of a type are stable already. Only the words that the type itself adds
can run on into something, so each construct is looked at where it puts its own words. -/

section

variable {elem : GoType}

/-- The star in front of a type runs on into an equals sign, and no type begins with one. -/
theorem stable_pointer (helem : Stable (elem.pieces qualifier))
    (hhead : ∃ c ∈ (textOf (elem.pieces qualifier)).head?, c ≠ '=') :
    Stable ((GoType.pointer elem).pieces qualifier) := by
  obtain ⟨c, hc, hne⟩ := hhead
  refine ⟨?_, fun rest hrest => ⟨?_, helem.stand rest hrest⟩⟩
  · simpa [pieces, Piece.isInline] using helem.inline
  · have hstar := (stand_star (s := textOf (elem.pieces qualifier) ++ rest) (by
      rw [List.head?_append, Option.mem_def.1 hc]
      simpa using hne)).1
    simpa [textOf] using hstar

/-- A length stands before the bracket behind it, whatever kind of word it is. -/
theorem stable_array {n : String} {kind : Kind} (hkind : kind.Writes n)
    (helem : Stable (elem.pieces qualifier)) :
    Stable ((GoType.array n elem).pieces qualifier) := by
  have hlength : Free [.lexeme (kindOf n) n.toList, .rightBracket] := by
    rw [kindOf_eq hkind]
    refine ⟨by simp [Piece.isInline], fun rest => ⟨?_, free_rightBracket.stand rest⟩⟩
    have hstand := (stand_before_break hkind (d := ']') (by decide) rest).1
    simpa [textOf] using hstand
  exact (free_leftBracket.append hlength).append_stable helem

/-- The brackets divide a map from its key, and the key from the value. -/
theorem stable_map {key value : GoType} (hkey : Stable (key.pieces qualifier))
    (hvalue : Stable (value.pieces qualifier)) :
    Stable ((GoType.map key value).pieces qualifier) := by
  have hopen : Free [.key .mapKw, .leftBracket] :=
    (stable_key .mapKw).append_free free_leftBracket (divided_cons (by decide))
  have hclose := (hopen.append_stable hkey).append_free free_rightBracket
    (divided_cons (by decide))
  simpa [pieces] using hclose.append_stable hvalue

/-- A channel has a space or a parenthesis behind its keyword, and an arrow on one side of it. -/
theorem stable_chan (direction : Direction) (helem : Stable (elem.pieces qualifier)) :
    Stable ((GoType.chan direction elem).pieces qualifier) := by
  have hkey := stable_key .chanKw
  have hspaced : Free [.key .chanKw, .space] :=
    hkey.append_free free_space (divided_cons (by decide))
  cases direction with
  | both =>
    rw [pieces, chanPieces]
    split
    · have hopen := (hspaced.append free_leftParen).append_stable helem
      exact (hopen.append_free free_rightParen (divided_cons (by decide))).stable
    · exact hspaced.append_stable helem
  | send =>
    have hopen : Free [.key .chanKw, .arrow, .space] :=
      hkey.append_free (free_arrow.append free_space) (divided_cons (by decide))
    exact hopen.append_stable helem
  | receive => exact (free_arrow.append hspaced).append_stable helem

end

/-- A word in front of a signature ends where the parenthesis of its parameters opens. -/
theorem stable_before_signature {ps : List Piece} {s : Signature} (hps : Stable ps)
    (hs : Stable (s.pieces qualifier)) : Stable (ps ++ s.pieces qualifier) := by
  refine hps.append hs ?_
  cases s
  exact divided_cons (by decide)

/-- A field is its name, its type and its tag, with spaces between them. -/
theorem stable_fieldPieces {f : Field} (hf : f.Proper)
    (htype : Stable (f.type.pieces qualifier)) :
    Stable (fieldPieces f.name (f.type.pieces qualifier) f.tag) := by
  have hnamed : Stable ((f.name.elim [] fun n => [.name n, .space]) ++ f.type.pieces qualifier) := by
    cases hname : f.name with
    | none => exact htype
    | some n =>
      exact ((stable_name (hf.name n hname)).append_free free_space
        (divided_cons (by decide))).append_stable htype
  unfold fieldPieces
  cases htag : f.tag with
  | none => simpa using hnamed
  | some tag =>
    exact (hnamed.append_free (free_space.append (free_string (hf.tag tag htag)))
      (divided_cons (by decide))).stable

/-- **Well-formed types are stable**: their text is cut into the pieces they are written in, unless
a name runs on behind it. -/
theorem WellFormed.stable {t : GoType} (hspelled : Spelled qualifier named length)
    (h : t.WellFormed named length) : Stable (t.pieces qualifier) := by
  induction t using componentInduction with
  | h t ih =>
    have hparts : ∀ s ∈ t.components, Stable (s.pieces qualifier) := fun s hs =>
      ih s hs (h.component hs)
    cases t with
    | basic name => exact stable_name (writes_of_predeclared h.proper)
    | named package name =>
      exact stable_qualified (hspelled.qualifier h.proper) (hspelled.name h.proper)
    | pointer elem =>
      exact stable_pointer (hparts elem (List.mem_singleton_self _))
        ((h.component (List.mem_singleton_self elem)).head_pieces hspelled)
    | slice elem =>
      have helem := hparts elem (List.mem_singleton_self _)
      exact (free_leftBracket.append free_rightBracket).append_stable helem
    | array n elem =>
      obtain ⟨kind, hkind⟩ := hspelled.length h.proper
      exact stable_array hkind (hparts elem (List.mem_singleton_self _))
    | map key value =>
      exact stable_map (hparts key (by simp [components])) (hparts value (by simp [components]))
    | chan direction elem => exact stable_chan direction (hparts elem (List.mem_singleton_self _))
    | func signature =>
      exact stable_before_signature (stable_key .funcKw) (h.proper.stable hparts)
    | interface body =>
      obtain ⟨methods, embeds⟩ := body
      refine (stable_key .interfaceKw).append (free_body fun qs hqs => ?_).stable
        (divided_cons (by decide))
      rw [Method.piecesAll_eq, GoType.piecesAll_eq] at hqs
      rcases List.mem_append.1 hqs with hqs | hqs
      · obtain ⟨m, hm, rfl⟩ := List.mem_map.1 hqs
        obtain ⟨hname, hproper⟩ := h.proper m hm
        have hsignature : Stable (m.signature.pieces qualifier) := hproper.stable fun s hs =>
          hparts s (List.mem_append_left _ (List.mem_flatMap.2 ⟨m, hm, hs⟩))
        exact stable_before_signature (stable_name hname) hsignature
      · obtain ⟨s, hs, rfl⟩ := List.mem_map.1 hqs
        exact hparts s (List.mem_append_right _ hs)
    | struct fields =>
      refine (stable_key .structKw).append (free_body fun qs hqs => ?_).stable
        (divided_cons (by decide))
      rw [Field.piecesAll_eq] at hqs
      obtain ⟨f, hf, rfl⟩ := List.mem_map.1 hqs
      exact stable_fieldPieces (h.proper f hf) (hparts f.type (List.mem_map_of_mem hf))

end GoType

end

end Multicast
