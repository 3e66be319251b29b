import Multicast.Proofs.Delimiters
import Multicast.Proofs.Lines

/-!
# Lines with places for names

Most lines of a generated file are always the same but for a few names. A `Stencil` is such a line,
with places where the names go. Whether it is cut into the same pieces whatever names are put there
can be told from the stencil alone: a name runs on into what follows it only if that continues every
name, and a delimiter or a blank runs on into no name (`Stencil.Sound`). The kinds of the words do
not depend on the names either (`lexesAs_fill`).

## Checking a line once for all names

The text of a line with names filled in depends on the names, but how it is cut does not, under two
conditions: two slots next to each other do not run on into one another, whatever name is in a slot; and
the stretches of text between the slots are cut as they are alone. Both are checked by evaluating
functions on the stencil. The check is made for each line of the template, and from there on the line is
known for all names.
-/

namespace Multicast

open Source

variable {ι : Type}

/-! ### Stencils

The slots of a stencil are its pieces, with places where the names go. They are computed from the texts
between the places. -/

/-- A stretch of a line: a text, or the place of a name. -/
inductive Segment (ι : Type)
  | text (s : String)
  | name (place : ι)

/-- A line with places for names. -/
abbrev Stencil (ι : Type) := List (Segment ι)

/-- A segment with the name that its place is for. -/
def Segment.fill (names : ι → String) : Segment ι → String
  | text s => s
  | name place => names place

/-- A line with names at their places. -/
def Stencil.fill (names : ι → String) (stencil : Stencil ι) : String :=
  String.join (stencil.map (Segment.fill names))

/-- A piece of a stencil, or the place of a name. -/
inductive Slot (ι : Type)
  | piece (p : Piece)
  | name (place : ι)
  deriving DecidableEq

namespace Slot

/-- A slot as a piece. -/
def fill (names : ι → String) : Slot ι → Piece
  | piece p => p
  | name place => .name (names place)

/-- Whether a piece divides names, so that every name can stand behind it. -/
def divides : Piece → Bool
  | .blank _ => true
  | .lexeme kind _ => kind.isSymbol
  | _ => false

/-- Whether a slot does not run on into the one behind it, whatever the names are. -/
def apart : Slot ι → Slot ι → Bool
  | piece p, piece q => q.text.head?.all fun d => !p.sticksTo d
  | piece p, name _ => divides p
  | name _, piece q => q.text.head?.all fun d => !isNameChar d
  | name _, name _ => false

/-- Whether each slot is apart from the next. -/
def allApart : List (Slot ι) → Bool
  | a :: b :: slots => a.apart b && allApart (b :: slots)
  | _ => true

/-- Whether a slot is a piece that can stand alone in a line. -/
def standsAlone : Slot ι → Bool
  | piece p => p.isInline && decide (p.Stands [])
  | name _ => true

end Slot

/-- The slots of a segment. -/
def Segment.slots : Segment ι → List (Slot ι)
  | text s => (split s.toList).1.map .piece
  | name place => [.name place]

/-- Whether all of a segment is cut into pieces. -/
def Segment.isCut : Segment ι → Bool
  | text s => textOf (split s.toList).1 == s.toList
  | name _ => true

namespace Stencil

/-- The slots of a stencil. -/
def slots (stencil : Stencil ι) : List (Slot ι) :=
  stencil.flatMap Segment.slots

/-- The pieces of a line with names at their places. -/
def pieces (names : ι → String) (stencil : Stencil ι) : List Piece :=
  stencil.slots.map (Slot.fill names)

/-- **A sound stencil** is cut into the same pieces whatever names are put in it. -/
def isSound (stencil : Stencil ι) : Bool :=
  stencil.all Segment.isCut && stencil.slots.all Slot.standsAlone && Slot.allApart stencil.slots

/-- The kinds of the words of a stencil, the line end that ends a statement included. -/
def kinds (stencil : Stencil ι) : List Kind :=
  (wordsOfText (stencil.pieces fun _ => "")).map Word.kind

end Stencil

/-! ### Names in their places -/

/-- No delimiter or blank runs on into a name. -/
theorem sticksTo_name {p : Piece} (hp : Slot.divides p = true) {d : Char}
    (hd : (Text.isLetter d || d = '_') = true) : p.sticksTo d = false := by
  cases p with
  | blank c => rfl
  | lexeme kind t =>
    have hkind : kind.isSymbol = true := hp
    have hnone := any_prefix_eq_false (d := d) (fun op hop hmem =>
      absurd (isNameChar_of_first hd) (by simp [isNameChar_of_mem_operators hop hmem])) t
    have hslash : d ≠ '/' := by
      rintro rfl
      rw [Text.isLetter_of_lt (by decide)] at hd
      cases hd
    have hstar : d ≠ '*' := by
      rintro rfl
      rw [Text.isLetter_of_lt (by decide)] at hd
      cases hd
    simp [Piece.sticksTo, hkind, hnone, hslash, hstar, isDigit_of_letter hd]
  | _ => cases hp

namespace Slot

variable {names : ι → String} (hnames : ∀ place, Kind.identifier.Writes (names place))

include hnames

/-- A slot that is apart from the next does not run on into its text. -/
theorem sticksTo_of_apart {a b : Slot ι} (h : a.apart b = true) {d : Char}
    (hd : d ∈ (b.fill names).text.head?) : (a.fill names).sticksTo d = false := by
  cases b with
  | piece q =>
    have hq : q.text.head? = some d := hd
    cases a with
    | piece p =>
      rw [apart, hq] at h
      have hsticks : p.sticksTo d = false := by simpa using h
      exact hsticks
    | name place =>
      rw [apart, hq] at h
      have hchar : isNameChar d = false := by simpa using h
      exact hchar
  | name place =>
    obtain ⟨c, cs, htext, hc, -⟩ := head_of_writes (hnames place)
    obtain rfl : c = d := by simpa [fill, htext] using hd
    cases a with
    | piece p => exact sticksTo_name h hc
    | name place => cases h

theorem stands_fill {a : Slot ι} (ha : a.standsAlone = true) {rest : List Char}
    (hrest : ∀ d ∈ rest.head?, (a.fill names).sticksTo d = false) :
    (a.fill names).Stands rest := by
  cases a with
  | piece p =>
    obtain ⟨hinline, halone⟩ : p.isInline = true ∧ p.Stands [] := by simpa [standsAlone] using ha
    exact Piece.Stands.before halone
      (Piece.isWhole_iff.1 (Piece.isWhole_of_isInline hinline)) hrest
  | name place => exact Piece.Stands.before (hnames place) (by simp [fill]) hrest

theorem text_fill_ne_nil {a : Slot ι} (ha : a.standsAlone = true) : (a.fill names).text ≠ [] := by
  have hstands : (a.fill names).Stands [] := stands_fill hnames ha (by simp)
  obtain ⟨c, cs, htext, -⟩ := hstands.next
  rw [List.append_nil] at htext
  rw [htext]
  exact List.cons_ne_nil c cs

/-- **Slots that are apart stand**, before every text that the last one does not run on into. -/
theorem stand_fill {slots : List (Slot ι)} (hslots : slots.all standsAlone = true)
    (hapart : allApart slots = true) {rest : List Char}
    (hlast : ∀ a ∈ slots.getLast?, ∀ d ∈ rest.head?, (a.fill names).sticksTo d = false) :
    Stand (slots.map (fill names)) rest := by
  induction slots with
  | nil => trivial
  | cons a slots ih =>
    obtain ⟨ha, hslots⟩ : a.standsAlone = true ∧ slots.all standsAlone = true := by
      simpa using hslots
    cases slots with
    | nil => exact ⟨stands_fill hnames ha (hlast a rfl), trivial⟩
    | cons b slots =>
      obtain ⟨hab, hapart⟩ : a.apart b = true ∧ allApart (b :: slots) = true := by
        simpa [allApart] using hapart
      refine ⟨stands_fill hnames ha fun d hd => sticksTo_of_apart hnames hab ?_,
        ih hslots hapart hlast⟩
      have hb : (b.fill names).text ≠ [] := text_fill_ne_nil hnames (List.all_eq_true.1 hslots b
        List.mem_cons_self)
      obtain ⟨c, cs, htext⟩ := List.exists_cons_of_ne_nil hb
      rw [List.map_cons, textOf, List.flatMap_cons, htext] at hd
      rw [htext]
      exact hd

end Slot

/-! ### Lines -/

section

variable {stencil : Stencil ι} {names : ι → String}

theorem toList_fill (h : stencil.isSound = true) :
    (stencil.fill names).toList = textOf (stencil.pieces names) := by
  have hcut : ∀ segment ∈ stencil, segment.isCut = true := by
    simp only [Stencil.isSound, Bool.and_eq_true] at h
    exact List.all_eq_true.1 h.1.1
  have hjoin : (stencil.fill names).toList =
      stencil.flatMap fun segment => (segment.fill names).toList := by
    simp [Stencil.fill, List.flatMap_map]
  rw [hjoin, Stencil.pieces, Stencil.slots, List.map_flatMap, textOf, List.flatMap_assoc]
  refine List.flatMap_congr fun segment hsegment => ?_
  cases segment with
  | text s =>
    have htext : textOf (split s.toList).1 = s.toList := eq_of_beq (hcut _ hsegment)
    rw [Segment.slots, List.map_map, List.flatMap_map]
    exact htext.symm
  | name place => simp [Segment.fill, Segment.slots, Slot.fill]

/-- A text with names in it stands before everything that does not continue its end. -/
theorem stand_pieces (h : stencil.isSound = true)
    (hnames : ∀ place, Kind.identifier.Writes (names place)) {rest : List Char}
    (hlast : ∀ a ∈ stencil.slots.getLast?, ∀ d ∈ rest.head?, (a.fill names).sticksTo d = false) :
    Stand (stencil.pieces names) rest := by
  simp only [Stencil.isSound, Bool.and_eq_true] at h
  exact Slot.stand_fill hnames h.1.2 h.2 hlast

theorem inline_pieces (h : stencil.isSound = true) : ∀ p ∈ stencil.pieces names, p.isInline := by
  intro p hp
  obtain ⟨a, ha, rfl⟩ := List.mem_map.1 hp
  simp only [Stencil.isSound, Bool.and_eq_true] at h
  have halone := List.all_eq_true.1 h.1.2 a ha
  cases a with
  | piece p =>
    rw [Slot.standsAlone, Bool.and_eq_true] at halone
    exact halone.1
  | name place => rfl

/-- The kinds of words do not depend on the names. -/
theorem kind_wordsOf_fill (names names' : ι → String) (ends : Bool) (slots : List (Slot ι)) :
    (wordsOf ends (slots.map (Slot.fill names))).map Word.kind =
        (wordsOf ends (slots.map (Slot.fill names'))).map Word.kind ∧
      endsAfter ends (slots.map (Slot.fill names)) =
        endsAfter ends (slots.map (Slot.fill names')) := by
  induction slots generalizing ends with
  | nil => exact ⟨rfl, rfl⟩
  | cons a slots ih =>
    cases a with
    | name place => exact ⟨congrArg (_ :: ·) (ih true).1, (ih true).2⟩
    | piece p =>
      have hrest (b : Bool) := ih b
      simp only [List.map_cons, Slot.fill]
      cases p <;> simp [wordsOf, endsAfter, hrest]

/-- A text with names in it that ends in one of them. -/
theorem stable_pieces (h : stencil.isSound = true)
    (hnames : ∀ place, Kind.identifier.Writes (names place)) {place : ι}
    (hlast : stencil.slots.getLast? = some (.name place)) : Stable (stencil.pieces names) where
  inline := inline_pieces h
  stand rest hrest := by
    refine stand_pieces h hnames fun a ha d hd => ?_
    obtain rfl : Slot.name place = a := Option.some.inj (hlast.symm.trans ha)
    exact hrest d hd

/-- The kinds of lexemes do not depend on the names. -/
theorem kindsOf_pieces (names' : ι → String) :
    kindsOf (stencil.pieces names) = kindsOf (stencil.pieces names') := by
  rw [Stencil.pieces, Stencil.pieces]
  induction stencil.slots with
  | nil => rfl
  | cons a slots ih =>
    cases a with
    | name place => exact congrArg (Kind.identifier :: ·) ih
    | piece p =>
      have hboth (ps : List Piece) :
          kindsOf (p :: ps) = kindsOf [p] ++ kindsOf ps := kindsOf_append [p] ps
      rw [List.map_cons, List.map_cons, Slot.fill, Slot.fill, hboth, ih]
      exact (hboth _).symm

/-- **The line of a sound stencil** is cut into its pieces. -/
theorem lexes_fill (h : stencil.isSound = true)
    (hnames : ∀ place, Kind.identifier.Writes (names place)) :
    Lexes (stencil.fill names) (wordsOfText (stencil.pieces names)) :=
  ⟨_, toList_fill h, stand_pieces h hnames (by simp),
    fun p hp => Piece.isWhole_of_isInline (inline_pieces h p hp), rfl⟩

/-- Lines whose words are of these kinds. -/
def LexesAs (lines : List String) (kinds : List Kind) : Prop :=
  ∃ words, LexesAll lines words ∧ words.map Word.kind = kinds

theorem LexesAs.append {lines others : List String} {kinds more : List Kind}
    (h : LexesAs lines kinds) (h' : LexesAs others more) :
    LexesAs (lines ++ others) (kinds ++ more) := by
  obtain ⟨words, hwords, rfl⟩ := h
  obtain ⟨words', hwords', rfl⟩ := h'
  exact ⟨_, hwords.append hwords', List.map_append⟩

theorem LexesAs.cons {line : String} {words : List Word} {lines : List String} {kinds : List Kind}
    (h : Lexes line words) (h' : LexesAs lines kinds) :
    LexesAs (line :: lines) (words.map Word.kind ++ kinds) := by
  obtain ⟨words', hwords', rfl⟩ := h'
  exact ⟨_, .cons h hwords', List.map_append⟩

theorem lexesAs_nil : LexesAs [] [] :=
  ⟨[], .nil, rfl⟩

/-- **Lines of sound stencils**: the kinds of their words are those of the stencils. -/
theorem lexesAs_fill (hnames : ∀ place, Kind.identifier.Writes (names place))
    {stencils : List (Stencil ι)} (h : stencils.all Stencil.isSound = true) :
    LexesAs (stencils.map (Stencil.fill names)) (stencils.flatMap Stencil.kinds) := by
  induction stencils with
  | nil => exact lexesAs_nil
  | cons stencil stencils ih =>
    obtain ⟨hstencil, hstencils⟩ : stencil.isSound = true ∧ stencils.all Stencil.isSound = true := by
      simpa using h
    have hkinds : (wordsOfText (stencil.pieces names)).map Word.kind = stencil.kinds := by
      obtain ⟨hwords, hends⟩ := kind_wordsOf_fill names (fun _ => "") false stencil.slots
      rw [Stencil.kinds, wordsOfText, wordsOfText, List.map_append, List.map_append,
        Stencil.pieces, Stencil.pieces, hwords, hends]
    rw [List.map_cons, List.flatMap_cons, ← hkinds]
    exact .cons (lexes_fill hstencil hnames) (ih hstencils)

end

end Multicast
