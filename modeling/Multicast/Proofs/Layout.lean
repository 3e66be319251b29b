import Mathlib.Data.List.Chain
import Mathlib.Data.List.DropRight
import Multicast.Proofs.Words

/-!
# How a text is laid out in tokens

A text with tokens is a row of spaces and tokens: before each token, and behind the last one, stands
a *space* of blanks and comments, which may be empty. Nothing else is in the text, and nothing of it
is lost. So the place of a token follows from the text before it: its line is told by the newlines in
that text, its column by what stands behind the last of them.

A space may stand for a semicolon, at the first place in it where a line ends. It does if the token
before it ends a statement and the space has a newline in it, be it between comments or inside one;
the space at the end of the text needs no newline.

Both are read off the pieces of the text. `layoutOf` collects the pieces between two lexemes into a
space, and follows the recursion of `tokensOf`, so that each kind of piece is one case of an
induction (`fits_layoutOf`, `ruled_layoutOf`).

## Two statements on one object

The layout of a text is computed from its pieces, and two things are shown of it. *It fits*: every space
is made of blanks and whole comments, every token stands where it says it does, and together they are the
text. *It is ruled*: the semicolons that a space stands for are those of the rule, and no others. Both
statements then pass to any text that has tokens, since its pieces stand one after the other.

Places are counted in characters, as they are in diagnostics, and a newline inside a comment or a raw
string counts as any other one does.
-/

namespace Multicast.Source

open Text (isBlank)

/-! ### Places -/

/-- The place behind a text: newlines make lines, and what follows the last of them makes columns. -/
def Position.behind (text : List Char) : Position where
  line := text.count '\n' + 1
  column := (text.rtakeWhile (· ≠ '\n')).length + 1

theorem Position.next_behind (text : List Char) (c : Char) :
    (Position.behind text).next c = .behind (text ++ [c]) := by
  rw [Position.next]
  split
  next hline =>
    subst hline
    simp [behind, List.rtakeWhile]
  next hother => simp [behind, List.rtakeWhile, hother]

/-- Walking along a text ends at the place behind it. -/
theorem Position.past_behind (before text : List Char) :
    (Position.behind before).past text = .behind (before ++ text) := by
  induction text generalizing before with
  | nil => simp
  | cons c text ih => rw [Position.past_cons, next_behind, ih, List.append_assoc, List.singleton_append]

theorem Position.start_eq : Position.start = .behind [] := rfl

/-! ### Spaces

Which comment goes up to which end depends on what follows, so a gap is a relation between two texts: the
gap and what stands behind it. -/

/-- **Blanks and comments**, in a text that goes on with `rest`. A comment that begins with two
slashes goes on up to the end of its line; one that begins with a slash and a star ends with the
first star before a slash. -/
inductive Gap (rest : List Char) : List Char → Prop
  | nil : Gap rest []
  | blank {c : Char} {text : List Char} (hc : isBlank c = true) (h : Gap rest text) :
    Gap rest (c :: text)
  | line {comment text : List Char} (hcomment : '\n' ∉ comment)
    (hends : ∀ c ∈ (text ++ rest).head?, c = '\n') (h : Gap rest text) :
    Gap rest ('/' :: '/' :: comment ++ text)
  | block {comment text : List Char} (hcomment : ¬['*', '/'] <:+: comment) (h : Gap rest text) :
    Gap rest ('/' :: '*' :: comment ++ '*' :: '/' :: text)

/-- What stands between two tokens: a text, and the semicolons that it stands for. -/
structure Space where
  text : List Char
  ends : List Token

/-- **A space fits** between two texts: it is made of blanks and comments, and each of its semicolons
has a place in it. -/
structure Space.Fits (space : Space) (before rest : List Char) : Prop where
  gap : Gap rest space.text
  ends : ∀ e ∈ space.ends, ∃ part, part <+: space.text ∧ e = .lineEnd (.behind (before ++ part))

/-- A space with more text at its beginning, which stands for the semicolons `ends`. -/
def Space.behind (text : List Char) (ends : List Token) (space : Space) : Space :=
  ⟨text ++ space.text, ends ++ space.ends⟩

theorem Space.Fits.behind {space : Space} {text before rest : List Char} {ends : List Token}
    (hspace : space.Fits (before ++ text) rest) (hgap : Gap rest (text ++ space.text))
    (hends : ∀ e ∈ ends, ∃ part, part <+: text ∧ e = .lineEnd (.behind (before ++ part))) :
    (space.behind text ends).Fits before rest where
  gap := hgap
  ends e he := by
    rcases List.mem_append.1 he with he | he
    · obtain ⟨part, hpart, rfl⟩ := hends e he
      exact ⟨part, hpart.trans (List.prefix_append text space.text), rfl⟩
    · obtain ⟨part, hpart, rfl⟩ := hspace.ends e he
      exact ⟨text ++ part, (List.prefix_append_right_inj text).2 hpart, by rw [List.append_assoc]⟩

/-! ### Layouts -/

/-- A row of tokens with a space before each of them and one behind the last. -/
structure Layout where
  tokens : List (Space × Token)
  last : Space

namespace Layout

/-- The text of a layout. -/
def text (l : Layout) : List Char :=
  (l.tokens.flatMap fun st => st.1.text ++ st.2.text.toList) ++ l.last.text

/-- All tokens of a layout, with the semicolons that spaces stand for. -/
def list (l : Layout) : List Token :=
  (l.tokens.flatMap fun st => st.1.ends ++ [st.2]) ++ l.last.ends

/-- A layout with one more token at its beginning. -/
def cons (space : Space) (token : Token) (l : Layout) : Layout :=
  ⟨(space, token) :: l.tokens, l.last⟩

/-- A layout with more text at its beginning, which stands for the semicolons `ends`. -/
def behind (text : List Char) (ends : List Token) : Layout → Layout
  | ⟨[], last⟩ => ⟨[], last.behind text ends⟩
  | ⟨(space, token) :: tokens, last⟩ => ⟨(space.behind text ends, token) :: tokens, last⟩

@[simp] theorem text_cons (space : Space) (token : Token) (l : Layout) :
    (l.cons space token).text = space.text ++ token.text.toList ++ l.text := by
  simp [cons, text]

@[simp] theorem list_cons (space : Space) (token : Token) (l : Layout) :
    (l.cons space token).list = space.ends ++ token :: l.list := by
  simp [cons, list]

@[simp] theorem text_behind (text : List Char) (ends : List Token) (l : Layout) :
    (l.behind text ends).text = text ++ l.text := by
  obtain ⟨_ | ⟨st, tokens⟩, last⟩ := l <;> simp [behind, Layout.text, Space.behind]

@[simp] theorem list_behind (text : List Char) (ends : List Token) (l : Layout) :
    (l.behind text ends).list = ends ++ l.list := by
  obtain ⟨_ | ⟨st, tokens⟩, last⟩ := l <;> simp [behind, list, Space.behind]

/-- **A layout fits** behind the text `before`: every space does, and every token is one of the text,
with its place behind all that stands before it. -/
inductive Fits : List Char → Layout → Prop
  | last {before : List Char} {space : Space} (hspace : space.Fits before []) :
    Fits before ⟨[], space⟩
  | cons {before : List Char} {space : Space} {token : Token} {l : Layout}
    (hspace : space.Fits before (token.text.toList ++ l.text)) (htoken : token.text ≠ "\n")
    (hpos : token.pos = .behind (before ++ space.text))
    (h : Fits (before ++ space.text ++ token.text.toList) l) :
    Fits before (l.cons space token)

/-- More text at the beginning fits if it makes a gap with every gap that may follow it. -/
theorem Fits.behind {before text : List Char} {ends : List Token} {l : Layout}
    (h : l.Fits (before ++ text))
    (hgap : ∀ gap rest, l.text = gap ++ rest → Gap rest gap → Gap rest (text ++ gap))
    (hends : ∀ e ∈ ends, ∃ part, part <+: text ∧ e = .lineEnd (.behind (before ++ part))) :
    (l.behind text ends).Fits before := by
  cases h with
  | @last _ space hspace =>
    exact .last (hspace.behind (hgap _ _ (by simp [Layout.text]) hspace.gap) hends)
  | @cons _ space token l hspace htoken hpos h =>
    refine .cons (hspace.behind (hgap _ _ (by simp) hspace.gap) hends) htoken ?_ ?_
    · rw [hpos, Space.behind, List.append_assoc]
    · simpa [Space.behind] using h

end Layout

/-! ### The layout of pieces

The recursion carries the text since the last token. A lexeme closes it and begins a new one, any other
piece makes it longer, and a newline behind a token that ends a statement leaves a semicolon in it. -/

/-- The pieces that stand between tokens. -/
def Piece.isGap : Piece → Bool
  | .newline | .blank _ | .lineComment _ | .blockComment _ => true
  | .lexeme _ _ | .broken _ _ => false

/-- The layout of the pieces that begin at `p`, as `tokensOf` reads them, with a semicolon at the end
of the text if one is due. -/
def layoutOf : Position → Bool → List Piece → Layout
  | p, ends, [] => ⟨[], ⟨[], if ends then [.lineEnd p] else []⟩⟩
  | p, ends, .newline :: ps =>
    (layoutOf (p.next '\n') false ps).behind ['\n'] (if ends then [.lineEnd p] else [])
  | p, ends, .blockComment t :: ps =>
    (layoutOf (p.past t) (ends && !t.contains '\n') ps).behind t
      (if ends && t.contains '\n' then [.lineEnd (p.past t)] else [])
  | p, _, .lexeme kind t :: ps =>
    (layoutOf (p.past t) (Word.endsStatement ⟨kind, String.ofList t⟩) ps).cons ⟨[], []⟩
      ⟨kind, String.ofList t, p⟩
  | p, ends, q :: ps => (layoutOf (p.past q.text) ends ps).behind q.text []

theorem text_layoutOf (p : Position) (ends : Bool) (ps : List Piece) :
    (layoutOf p ends ps).text = textOf ps := by
  induction ps generalizing p ends with
  | nil => rfl
  | cons q ps ih => cases q <;> simp [layoutOf, ih, textOf]

/-- The tokens of the layout are those of the pieces. -/
theorem list_layoutOf (p : Position) (ends : Bool) (ps : List Piece) :
    (layoutOf p ends ps).list =
      tokensOf p ends ps ++ if endsAfter ends ps then [.lineEnd (p.past (textOf ps))] else [] := by
  induction ps generalizing p ends with
  | nil => rfl
  | cons q ps ih => cases q <;> simp [layoutOf, ih, tokensOf, endsAfter, textOf, Position.past_append]

/-! ### The pieces of a gap -/

/-- A block comment has its end behind a text without one. -/
theorem commentEnd_shape {cs : List Char} (h : (commentEnd cs).found = true) :
    ∃ comment, (commentEnd cs).text = comment ++ ['*', '/'] ∧ ¬['*', '/'] <:+: comment := by
  fun_induction commentEnd cs with
  | case1 => cases h
  | case2 cs => exact ⟨[], rfl, by simp⟩
  | case3 c cs hne ih =>
    obtain ⟨comment, htext, hcomment⟩ := ih h
    refine ⟨c :: comment, by simp [htext], fun hin => ?_⟩
    rcases List.infix_cons_iff.1 hin with ⟨rest, hrest⟩ | hin
    · -- the star before the slash would have been found
      obtain ⟨rfl, rfl⟩ : '*' = c ∧ '/' :: rest = comment := by simpa using hrest
      exact hne _ rfl ((commentEnd_text cs).symm.trans (by rw [htext, List.cons_append]; rfl))
    · exact hcomment hin

/-- How the pieces of a text are written that goes on with `rest`. -/
inductive Piece.Shaped (rest : List Char) : Piece → Prop
  | newline : Shaped rest .newline
  | blank {c : Char} (hc : isBlank c = true) (hline : c ≠ '\n') : Shaped rest (.blank c)
  | lineComment {comment : List Char} (hcomment : '\n' ∉ comment)
    (hends : ∀ c ∈ rest.head?, c = '\n') : Shaped rest (.lineComment ('/' :: '/' :: comment))
  | blockComment {comment : List Char} (hcomment : ¬['*', '/'] <:+: comment) :
    Shaped rest (.blockComment ('/' :: '*' :: comment ++ ['*', '/']))
  | lexeme {kind : Kind} {c : Char} {t : List Char} (hline : c ≠ '\n') :
    Shaped rest (.lexeme kind (c :: t))
  | broken {cause : Cause} {t : List Char} : Shaped rest (.broken cause t)

/-- A literal begins with its quote, and has no other shape. -/
theorem Ending.shaped_piece {c : Char} {kind : Kind} {cause : Cause} {e : Ending}
    {rest : List Char} (hline : c ≠ '\n') :
    (e.piece [c] (.lexeme kind) cause).1.Shaped rest := by
  unfold Ending.piece
  split
  · exact .lexeme hline
  · exact .broken

theorem Piece.shaped_of_next {c : Char} {cs rest : List Char} {p : Piece}
    (h : Piece.next c cs = some (p, rest)) : p.Shaped rest := by
  have cut {q : Piece × List Char} (hq : some q = some (p, rest)) (hshaped : q.1.Shaped q.2) :
      p.Shaped rest := by
    obtain rfl := Option.some.inj hq
    exact hshaped
  -- one case for each test of the scanner, in its order
  unfold Piece.next at h
  split at h
  · exact cut h .newline
  next hline =>
  split at h
  next hblank => exact cut h (.blank hblank hline)
  split at h
  next hcomment =>
    obtain ⟨rfl, hcs⟩ : c = '/' ∧ cs.head? = some '/' := by simpa using hcomment
    obtain ⟨cs, rfl⟩ := List.head?_eq_some_iff.1 hcs
    have hcomment : '\n' ∉ cs.takeWhile (· ≠ '\n') := fun hmem => by
      simpa using List.mem_takeWhile_imp hmem
    refine cut h (.lineComment hcomment fun d hd => ?_)
    · have hrest : ('/' :: cs).dropWhile (· ≠ '\n') = cs.dropWhile (· ≠ '\n') := by simp
      have hstop := List.head?_dropWhile_not (· ≠ '\n') cs
      rw [← hrest, Option.mem_def.1 hd] at hstop
      simpa using hstop
  split at h
  next hcomment =>
    obtain ⟨rfl, hcs⟩ : c = '/' ∧ cs.head? = some '*' := by simpa using hcomment
    refine cut h ?_
    unfold Ending.piece
    split
    next hfound =>
      obtain ⟨comment, htext, hcomment⟩ := commentEnd_shape hfound
      rw [htext]
      exact .blockComment hcomment
    next => exact .broken
  split at h
  · exact cut h (.lexeme hline)
  split at h
  · exact cut h (.lexeme hline)
  split at h
  · exact cut h (Ending.shaped_piece hline)
  split at h
  · exact cut h (Ending.shaped_piece hline)
  split at h
  · exact cut h (Ending.shaped_piece hline)
  -- an operator is a start of the text, so its first character is the one at hand
  · obtain ⟨op, hop, heq⟩ := Option.map_eq_some_iff.1 h
    refine cut (congrArg some heq) ?_
    obtain ⟨t, ht⟩ := prefix_of_operator? hop
    cases hhead : op.1 with
    | nil => exact absurd hhead (operator?_ne_nil hop)
    | cons d ds =>
      rw [hhead] at ht
      cases ht
      exact .lexeme hline

/-- **A piece between tokens** makes a gap with every gap that follows it. -/
theorem Piece.Shaped.gap {p : Piece} {gap rest : List Char} (h : p.Shaped (gap ++ rest))
    (hp : p.isGap = true) (hgap : Gap rest gap) : Gap rest (p.text ++ gap) := by
  cases h with
  | newline => exact .blank (by decide) hgap
  | blank hc => exact .blank hc hgap
  | lineComment hcomment hends => exact .line hcomment hends hgap
  | blockComment hcomment => simpa using Gap.block hcomment hgap
  | lexeme | broken => cases hp

/-- **Whole pieces that stand are laid out** behind the text before them. -/
theorem fits_layoutOf {ps : List Piece} (hstand : Stand ps []) (hwhole : ∀ q ∈ ps, q.isWhole)
    (before : List Char) (ends : Bool) : (layoutOf (.behind before) ends ps).Fits before := by
  induction ps generalizing before ends with
  | nil =>
    refine .last ⟨.nil, fun e he => ⟨[], List.prefix_rfl, ?_⟩⟩
    rw [List.append_nil]
    split at he <;> simp_all
  | cons q ps ih =>
    have hps (more : List Char) (b : Bool) :
        (layoutOf ((Position.behind before).past more) b ps).Fits (before ++ more) := by
      rw [Position.past_behind]
      exact ih hstand.2 (fun r hr => hwhole r (List.mem_cons_of_mem _ hr)) _ b
    have hshaped : q.Shaped (textOf ps) := by
      obtain ⟨c, cs, -, hnext⟩ := hstand.1.next
      simpa using Piece.shaped_of_next hnext
    have hgap (hq : q.isGap = true) (p : Position) (b : Bool) (gap rest : List Char)
        (htext : (layoutOf p b ps).text = gap ++ rest) (h : Gap rest gap) :
        Gap rest (q.text ++ gap) := by
      rw [text_layoutOf] at htext
      exact Piece.Shaped.gap (htext ▸ hshaped) hq h
    cases q with
    | newline =>
      refine (hps ['\n'] false).behind (hgap rfl _ _) fun e he => ⟨[], List.nil_prefix, ?_⟩
      rw [List.append_nil]
      split at he <;> simp_all
    | blank c => exact (hps [c] ends).behind (hgap rfl _ _) (by simp)
    | lineComment t => exact (hps t ends).behind (hgap rfl _ _) (by simp)
    | blockComment t =>
      refine (hps t _).behind (hgap rfl _ _) fun e he => ⟨t, List.prefix_rfl, ?_⟩
      rw [← Position.past_behind]
      split at he <;> simp_all
    | lexeme kind t =>
      refine .cons ⟨.nil, by simp⟩ ?_ (by rw [List.append_nil]) (by simpa using hps t _)
      -- no token begins with a newline, so none is written like a line end
      cases hshaped with
      | lexeme hline =>
        intro htext
        have hchars := congrArg String.toList htext
        rw [String.toList_ofList] at hchars
        exact hline (List.cons.inj hchars).1
    | broken cause t => cases hwhole _ List.mem_cons_self

/-! ### Where lines end statements

A space stands for one semicolon at most: behind it, no token is due to be ended until the next one has
come. -/

namespace Layout

/-- **The semicolons of a layout follow the rule**: a space stands for one if the token before it ends
a statement and there is a newline in the space, the last space if the token before it does. Where no
token is before it, `ends` says whether one is due. -/
inductive Ruled : Bool → Layout → Prop
  | last {ends : Bool} {space : Space} (hspace : space.ends.length = ends.toNat) :
    Ruled ends ⟨[], space⟩
  | cons {ends : Bool} {space : Space} {token : Token} {l : Layout}
    (hspace : space.ends.length = (ends && space.text.contains '\n').toNat)
    (h : Ruled token.endsStatement l) : Ruled ends (l.cons space token)

/-- Text at the beginning stands for the semicolon that is due if it has a newline in it, and then
none is due behind it. -/
theorem Ruled.behind {ends : Bool} {text : List Char} {semicolons : List Token} {l : Layout}
    (h : l.Ruled (ends && !text.contains '\n'))
    (hends : semicolons.length = (ends && text.contains '\n').toNat) :
    (l.behind text semicolons).Ruled ends := by
  cases h with
  | last hspace =>
    refine .last ?_
    rw [Space.behind, List.length_append, hends, hspace]
    cases ends <;> cases text.contains '\n' <;> rfl
  | cons hspace h =>
    refine .cons ?_ h
    rw [Space.behind, List.length_append, hends, hspace]
    cases ends <;> cases ht : text.contains '\n' <;> simp_all

end Layout

theorem length_due (b : Bool) (t : Token) : (if b then [t] else []).length = b.toNat := by
  cases b <;> rfl

/-- **Whole pieces that stand follow the rule** for the semicolons between their tokens. -/
theorem ruled_layoutOf {ps : List Piece} (hstand : Stand ps []) (hwhole : ∀ q ∈ ps, q.isWhole)
    (p : Position) (ends : Bool) : (layoutOf p ends ps).Ruled ends := by
  induction ps generalizing p ends with
  | nil => exact .last (by cases ends <;> rfl)
  | cons q ps ih =>
    have hps (p : Position) (b : Bool) : (layoutOf p b ps).Ruled b :=
      ih hstand.2 (fun r hr => hwhole r (List.mem_cons_of_mem _ hr)) p b
    have hshaped : q.Shaped (textOf ps) := by
      obtain ⟨c, cs, -, hnext⟩ := hstand.1.next
      simpa using Piece.shaped_of_next hnext
    cases hshaped with
    | newline => exact .behind (by simpa using hps _ _) (by simpa using length_due _ _)
    | blank hc hline => exact .behind (by simpa [Ne.symm hline] using hps _ _) (by simp [Ne.symm hline])
    | lineComment hcomment => exact .behind (by simpa [hcomment] using hps _ _) (by simp [hcomment])
    | blockComment hcomment => exact .behind (hps _ _) (length_due _ _)
    | lexeme hline => exact .cons (by simp) (hps _ _)
    | broken => cases hwhole _ List.mem_cons_self

/-! ### Texts with tokens -/

/-- **A layout of a text with tokens**: it has the text and the tokens, and all of it fits. The text
ends where the reading of it ended. -/
structure Layout.LaysOut (l : Layout) (source : String) (ts : Tokens) : Prop where
  text : l.text = source.toList
  list : l.list = ts.list
  stop : ts.stop = .behind source.toList
  fits : l.Fits []

/-- A text with tokens is laid out in its pieces. -/
theorem laysOut_layoutOf {text : String} {ts : Tokens} (h : tokenize text = .ok ts) :
    ∃ l : Layout, l.LaysOut text ts ∧ l.Ruled false := by
  obtain ⟨ps, hsplit, hwhole, rfl⟩ := tokenize_eq_ok_iff.1 h
  have hstand : Stand ps [] := by simpa [hsplit] using stand_split text.toList
  have htext : textOf ps = text.toList := by simpa [hsplit] using split_text text.toList
  refine ⟨layoutOf .start false ps, ⟨?_, ?_, ?_, ?_⟩, ruled_layoutOf hstand hwhole _ _⟩
  · rw [text_layoutOf, htext]
  · rw [list_layoutOf]
  · rw [Position.start_eq, Position.past_behind, htext, List.nil_append]
  · rw [Position.start_eq]
    exact fits_layoutOf hstand hwhole _ _

/-- **Nothing of a text is lost, and every token has its place.** A text with tokens is a row of
spaces and tokens, where every space is made of blanks and comments, and every token stands where its
place says. A semicolon for the end of a line has a place in the space it comes from. -/
theorem exists_laysOut_of_tokenize {text : String} {ts : Tokens} (h : tokenize text = .ok ts) :
    ∃ l : Layout, l.LaysOut text ts := by
  obtain ⟨l, hl, -⟩ := laysOut_layoutOf h
  exact ⟨l, hl⟩

/-- A raw string over two lines, an escaped quote, and comments of both sorts. -/
theorem exists_laysOut_of_mixed : ∃ l : Layout, l.LaysOut
    "x /* a\n*/ \x60r\n\x60, \"\\\"\" // e\n'\\n'"
    ⟨[⟨.identifier, "x", ⟨1, 1⟩⟩, .lineEnd ⟨2, 3⟩, ⟨.string, "\x60r\n\x60", ⟨2, 4⟩⟩,
      ⟨.comma, ",", ⟨3, 2⟩⟩, ⟨.string, "\"\\\"\"", ⟨3, 4⟩⟩, .lineEnd ⟨3, 13⟩,
      ⟨.rune, "'\\n'", ⟨4, 1⟩⟩, .lineEnd ⟨4, 5⟩], ⟨4, 5⟩⟩ :=
  exists_laysOut_of_tokenize ((tokenize_ofList _).trans (by decide +kernel))

/-- The tokens after which the end of a line ends a statement. -/
def Token.EndsStatement (t : Token) : Prop :=
  t.kind ∈ [.identifier, .number, .rune, .string, .keyword .breakKw, .keyword .continueKw,
    .keyword .fallthroughKw, .keyword .returnKw, .rightParen, .rightBracket, .rightBrace] ∨
  t.text ∈ ["++", "--"]

instance (t : Token) : Decidable t.EndsStatement :=
  inferInstanceAs (Decidable (_ ∨ _))

theorem endsStatement_iff (t : Token) : t.endsStatement = true ↔ t.EndsStatement := by
  have hkind : t.kind.endsStatement = true ↔ t.kind ∈ [.identifier, .number, .rune, .string,
      .keyword .breakKw, .keyword .continueKw, .keyword .fallthroughKw, .keyword .returnKw,
      .rightParen, .rightBracket, .rightBrace] := by
    cases t.kind with
    | keyword k => cases k <;> decide
    | _ => decide
  simp [Token.endsStatement, Token.EndsStatement, hkind, or_assoc]

namespace Layout

/-- The first space has the semicolon that is due, if it has a newline. -/
theorem Ruled.first {ends : Bool} {l : Layout} (h : l.Ruled ends) :
    ∀ st ∈ l.tokens.head?, st.1.ends.length = (ends && st.1.text.contains '\n').toNat := by
  rintro st hst
  cases h with
  | last => cases hst
  | cons hspace =>
    obtain rfl := Option.some.inj hst
    exact hspace

theorem toNat_endsStatement (t : Token) (text : List Char) :
    (t.endsStatement && text.contains '\n').toNat =
      if t.EndsStatement ∧ '\n' ∈ text then 1 else 0 := by
  by_cases ht : t.endsStatement = true <;> by_cases hline : '\n' ∈ text <;>
    simp [← endsStatement_iff, ht, hline]

/-- Between two tokens stands a semicolon where the rule wants one, and nowhere else. -/
theorem Ruled.isChain {ends : Bool} {l : Layout} (h : l.Ruled ends) :
    l.tokens.IsChain fun a b =>
      b.1.ends.length = if a.2.EndsStatement ∧ '\n' ∈ b.1.text then 1 else 0 := by
  induction h with
  | last => exact .nil
  | cons hspace h ih =>
    refine ih.cons fun b hb => ?_
    rw [h.first b hb, toNat_endsStatement]

/-- At the end of the text stands a semicolon if the last token ends a statement. -/
theorem Ruled.ends_last {ends : Bool} {l : Layout} (h : l.Ruled ends) :
    l.last.ends.length =
      (l.tokens.getLast?.elim ends fun st => st.2.endsStatement).toNat := by
  induction h with
  | last hspace => exact hspace
  | @cons _ _ token l hspace h ih =>
    rw [Layout.cons, ih]
    cases hl : l.tokens.getLast? with
    | none => rw [List.getLast?_eq_none_iff.1 hl]; rfl
    | some st => rw [List.getLast?_cons, hl]; rfl

end Layout

/-- **The ends of lines are semicolons by the rule.** Between two neighbouring tokens of a text stands
one semicolon if the first of them ends a statement and there is a newline between them, and none
otherwise. None stands before the first token; behind the last one stands one if that token ends a
statement. -/
theorem exists_ruled_of_tokenize {text : String} {ts : Tokens} (h : tokenize text = .ok ts) :
    ∃ l : Layout, l.LaysOut text ts ∧
      (∀ first ∈ l.tokens.head?, first.1.ends = []) ∧
      (l.tokens.IsChain fun a b =>
        b.1.ends.length = if a.2.EndsStatement ∧ '\n' ∈ b.1.text then 1 else 0) ∧
      (∀ final ∈ l.tokens.getLast?,
        l.last.ends.length = if final.2.EndsStatement then 1 else 0) ∧
      (l.tokens = [] → l.last.ends = []) := by
  obtain ⟨l, hl, hruled⟩ := laysOut_layoutOf h
  have hlast := hruled.ends_last
  refine ⟨l, hl, fun first hfirst => ?_, hruled.isChain, fun final hfinal => ?_, fun hnone => ?_⟩
  · simpa using hruled.first first hfirst
  · rw [Option.mem_def.1 hfinal] at hlast
    rw [hlast, Option.elim_some]
    by_cases ht : final.2.endsStatement = true <;> simp [← endsStatement_iff, ht]
  · simpa [hnone] using hlast

/-- A newline in a comment ends a statement behind a name, and none behind a comma. -/
theorem exists_ruled_of_comments : ∃ l : Layout,
    l.LaysOut "// t\nx /* a\n\n*/\n , /*\n*/ ++"
      ⟨[⟨.identifier, "x", ⟨2, 1⟩⟩, .lineEnd ⟨4, 3⟩, ⟨.comma, ",", ⟨5, 2⟩⟩,
        ⟨.operator, "++", ⟨6, 4⟩⟩, .lineEnd ⟨6, 6⟩], ⟨6, 6⟩⟩ ∧
      (∀ first ∈ l.tokens.head?, first.1.ends = []) ∧
      (l.tokens.IsChain fun a b =>
        b.1.ends.length = if a.2.EndsStatement ∧ '\n' ∈ b.1.text then 1 else 0) ∧
      (∀ final ∈ l.tokens.getLast?,
        l.last.ends.length = if final.2.EndsStatement then 1 else 0) ∧
      (l.tokens = [] → l.last.ends = []) :=
  exists_ruled_of_tokenize ((tokenize_ofList _).trans (by decide +kernel))

end Multicast.Source
