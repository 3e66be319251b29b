import Multicast.Proofs.Cutting

/-!
# Tokens without places

Where a token stands in its text matters for diagnostics only. A token without its place is a
`Word`, and the words of a text follow from its pieces alone: they are the lexemes, with a line end
wherever a line ends a statement (`wordsOf`). The tokens of a text that was put together from pieces
are therefore known up to their places (`tokenize_of_stand`), also if the text stands below another
one (`tokenize_below`).

## Line ends between pieces

Pieces are the lexemes of a text, with the blanks, comments and newlines between them. All that has to be
remembered on the way from pieces to words is whether the last lexeme ends a statement; at a newline, be
it in a comment, this decides whether there is a word, and it is then forgotten. The end of the text
counts as a newline. The function `wordsOf` is this automaton without places, and `tokensOf` is the same
with places.

Conversely, a text that has tokens is cut into whole pieces (`tokenize_eq_ok_iff`), so that everything
about its tokens can be said in terms of pieces.
-/

namespace Multicast.Source

/-! ### Words

Two tokens with the same word are told apart by their places only. -/

/-- A token without its place. -/
structure Word where
  kind : Kind
  text : String
  deriving DecidableEq, Repr

namespace Word

/-- The line end that ends a statement. -/
def lineEnd : Word := ⟨.semicolon, "\n"⟩

/-- Whether the end of a line after this word ends a statement. -/
def endsStatement (w : Word) : Bool :=
  w.kind.endsStatement || w.text = "++" || w.text = "--"

end Word

/-- What a token is, wherever it stands. -/
def Token.word (t : Token) : Word := ⟨t.kind, t.text⟩

@[simp] theorem word_lineEnd (p : Position) : (Token.lineEnd p).word = .lineEnd := rfl

theorem endsStatement_word (t : Token) : t.word.endsStatement = t.endsStatement := rfl

/-- The line end that stands for the end of a text, if one does. -/
def closing (ends : Bool) : List Word :=
  if ends then [.lineEnd] else []

/-- Whether a line that ends behind these pieces ends a statement. -/
def endsAfter : Bool → List Piece → Bool
  | ends, [] => ends
  | _, .newline :: ps => endsAfter false ps
  | ends, .blockComment t :: ps => endsAfter (ends && !t.contains '\n') ps
  | _, .lexeme kind t :: ps => endsAfter (Word.endsStatement ⟨kind, String.ofList t⟩) ps
  | ends, _ :: ps => endsAfter ends ps

/-- The words of pieces. A line that ends before the first of them ends a statement if `ends`
holds. -/
def wordsOf : Bool → List Piece → List Word
  | _, [] => []
  | ends, .newline :: ps => closing ends ++ wordsOf false ps
  | ends, .blockComment t :: ps =>
    closing (ends && t.contains '\n') ++ wordsOf (ends && !t.contains '\n') ps
  | _, .lexeme kind t :: ps =>
    ⟨kind, String.ofList t⟩ :: wordsOf (Word.endsStatement ⟨kind, String.ofList t⟩) ps
  | ends, _ :: ps => wordsOf ends ps

theorem wordsOf_append (ends : Bool) (ps qs : List Piece) :
    wordsOf ends (ps ++ qs) = wordsOf ends ps ++ wordsOf (endsAfter ends ps) qs := by
  induction ps generalizing ends with
  | nil => rfl
  | cons p ps ih => cases p <;> simp [wordsOf, endsAfter, ih]

theorem endsAfter_append (ends : Bool) (ps qs : List Piece) :
    endsAfter ends (ps ++ qs) = endsAfter (endsAfter ends ps) qs := by
  induction ps generalizing ends with
  | nil => rfl
  | cons p ps ih => cases p <;> simp [endsAfter, ih]

/-! ### Pieces of one line -/

/-- Pieces between which no line ends. -/
def Piece.isInline : Piece → Bool
  | .lexeme _ _ | .blank _ => true
  | _ => false

/-- The lexemes among pieces. -/
def lexemes : List Piece → List Word
  | [] => []
  | .lexeme kind t :: ps => ⟨kind, String.ofList t⟩ :: lexemes ps
  | _ :: ps => lexemes ps

@[simp] theorem lexemes_append (ps qs : List Piece) :
    lexemes (ps ++ qs) = lexemes ps ++ lexemes qs := by
  induction ps with
  | nil => rfl
  | cons p ps ih => cases p <;> simp [lexemes, ih]

/-- Between pieces of one line no line end is added. -/
theorem wordsOf_inline {ps : List Piece} (h : ∀ p ∈ ps, p.isInline) (ends : Bool) :
    wordsOf ends ps = lexemes ps := by
  induction ps generalizing ends with
  | nil => rfl
  | cons p ps ih =>
    have hp := h p List.mem_cons_self
    have hps := ih fun q hq => h q (List.mem_cons_of_mem _ hq)
    cases p with
    | lexeme kind t => rw [wordsOf, hps, lexemes]
    | blank c => exact hps ends
    | _ => cases hp

/-! ### From pieces to tokens -/

/-- A piece that is not a literal or comment without an end. -/
def Piece.isWhole : Piece → Bool
  | .broken _ _ => false
  | _ => true

theorem Piece.isWhole_iff {p : Piece} : p.isWhole = true ↔ ∀ cause t, p ≠ .broken cause t := by
  cases p <;> simp [isWhole]

theorem Piece.isWhole_of_isInline {p : Piece} (h : p.isInline = true) : p.isWhole = true := by
  cases p <;> simp_all [isInline, isWhole]

/-- The tokens of pieces of which the first begins at `p`. -/
def tokensOf : Position → Bool → List Piece → List Token
  | _, _, [] => []
  | p, ends, .newline :: ps =>
    (if ends then [.lineEnd p] else []) ++ tokensOf (p.next '\n') false ps
  | p, ends, .blockComment t :: ps =>
    (if ends && t.contains '\n' then [.lineEnd (p.past t)] else []) ++
      tokensOf (p.past t) (ends && !t.contains '\n') ps
  | p, _, .lexeme kind t :: ps =>
    ⟨kind, String.ofList t, p⟩ ::
      tokensOf (p.past t) (Word.endsStatement ⟨kind, String.ofList t⟩) ps
  | p, ends, q :: ps => tokensOf (p.past q.text) ends ps

theorem word_tokensOf (p : Position) (ends : Bool) (ps : List Piece) :
    (tokensOf p ends ps).map Token.word = wordsOf ends ps := by
  induction ps generalizing p ends with
  | nil => rfl
  | cons q ps ih =>
    cases q with
    | newline => cases ends <;> simp [tokensOf, wordsOf, closing, ih]
    | blockComment t =>
      rw [tokensOf, wordsOf, List.map_append, ih, closing]
      split <;> rfl
    | _ => simp [tokensOf, wordsOf, ih, Token.word]

theorem tokensOf_append (p : Position) (ends : Bool) (ps qs : List Piece) :
    tokensOf p ends (ps ++ qs) =
      tokensOf p ends ps ++ tokensOf (p.past (textOf ps)) (endsAfter ends ps) qs := by
  induction ps generalizing p ends with
  | nil => rfl
  | cons q ps ih =>
    cases q <;> simp [tokensOf, endsAfter, ih, textOf, Position.past_append]

/-- The reading of a text that goes on with `l` behind these tokens. -/
def Lexing.after (tokens : List Token) (l : Lexing) : Lexing :=
  { l with items := tokens.map .ok ++ l.items }

theorem Lexing.tokens_after (tokens : List Token) (l : Lexing) :
    (l.after tokens).tokens =
      (l.tokens).map fun t => ⟨tokens ++ t.list, t.stop⟩ := by
  have hitems : ((l.after tokens).items.mapM id : Except Flaw _) =
      (l.items.mapM id).map (tokens ++ ·) := by
    induction tokens with
    | nil =>
      simp only [after, List.map_nil, List.nil_append]
      cases l.items.mapM id <;> rfl
    | cons t tokens ih =>
      simp only [after, List.map_cons, List.cons_append, List.mapM_cons, id] at ih ⊢
      rw [ih]
      cases l.items.mapM id <;> rfl
  simp only [Lexing.tokens, hitems]
  cases l.items.mapM id with
  | error e => rfl
  | ok list =>
    have hlast : (l.after tokens).last = l.last := rfl
    rw [hlast]
    cases l.last <;> rfl

/-- The pieces of a text that has no flaw are read one after another. -/
theorem Lexing.ofPieces_append {ps : List Piece} (h : ∀ q ∈ ps, q.isWhole) (left : List Char)
    (p : Position) (ends : Bool) (qs : List Piece) :
    ofPieces left p ends (ps ++ qs) =
      (ofPieces left (p.past (textOf ps)) (endsAfter ends ps) qs).after (tokensOf p ends ps) := by
  induction ps generalizing p ends with
  | nil => rfl
  | cons q ps ih =>
    have hq := h q List.mem_cons_self
    have hps := ih fun r hr => h r (List.mem_cons_of_mem _ hr)
    cases q with
    | newline =>
      cases ends <;>
        simp [ofPieces, hps, tokensOf, endsAfter, after, push, textOf]
    | blockComment t =>
      cases hends : ends && t.contains '\n'
      · have heq : (ends && !t.contains '\n') = ends := by
          cases ends <;> simp_all
        simp only [List.cons_append, ofPieces, hends, Bool.false_eq_true, if_false, hps, tokensOf,
          endsAfter, heq, List.nil_append, textOf, List.flatMap_cons, Piece.text,
          Position.past_append]
      · have heq : (ends && !t.contains '\n') = false := by
          cases ends <;> simp_all
        simp only [List.cons_append, ofPieces, hends, if_true, hps, tokensOf,
          endsAfter, heq, textOf, List.flatMap_cons, Piece.text, Position.past_append]
        rfl
    | broken cause t => cases hq
    | lexeme kind t =>
      simp only [List.cons_append, ofPieces, hps, tokensOf, endsAfter, textOf, List.flatMap_cons,
        Piece.text, Position.past_append]
      rfl
    | blank c | lineComment t =>
      simp only [List.cons_append, ofPieces, hps, tokensOf, endsAfter, textOf, List.flatMap_cons,
        Piece.text, Position.past_append, Position.past_cons, Position.past_nil]

/-- The tokens of whole pieces up to the end of the text. -/
theorem Lexing.tokens_ofPieces {ps : List Piece} (h : ∀ q ∈ ps, q.isWhole) (p : Position)
    (ends : Bool) :
    (ofPieces [] p ends ps).tokens =
      .ok ⟨tokensOf p ends ps ++
        if endsAfter ends ps then [.lineEnd (p.past (textOf ps))] else [],
        p.past (textOf ps)⟩ := by
  rw [← List.append_nil ps, ofPieces_append h, tokens_after, List.append_nil, ofPieces, atEnd]
  split <;> simp [Lexing.tokens, pure, bind, Except.pure, Except.bind, Except.map, *]

theorem Lexing.tokens_push_ok (t : Token) {l : Lexing} {ts : Tokens}
    (h : (l.push (.ok t)).tokens = .ok ts) : ∃ ts', l.tokens = .ok ts' := by
  have hafter := tokens_after [t] l
  cases hl : l.tokens with
  | error e =>
    rw [hl] at hafter
    exact absurd (h.symm.trans hafter) (by simp [Except.map])
  | ok ts' => exact ⟨ts', rfl⟩

/-- A text that has tokens has whole pieces, and nothing is left of it. -/
theorem Lexing.whole_of_tokens {left : List Char} {p : Position} {ends : Bool} {ps : List Piece}
    {ts : Tokens} (h : (ofPieces left p ends ps).tokens = .ok ts) :
    left = [] ∧ ∀ q ∈ ps, q.isWhole := by
  induction ps generalizing p ends ts with
  | nil =>
    cases left with
    | nil => simp
    | cons c cs => cases h
  | cons q ps ih =>
    suffices hrest : ∃ p' ends' ts', (ofPieces left p' ends' ps).tokens = .ok ts' ∧ q.isWhole by
      obtain ⟨p', ends', ts', hps, hq⟩ := hrest
      simpa [hq] using ih hps
    cases q with
    | newline | blockComment t =>
      simp only [ofPieces] at h
      split at h
      · obtain ⟨ts', h'⟩ := tokens_push_ok _ h
        exact ⟨_, _, ts', h', rfl⟩
      · exact ⟨_, _, ts, h, rfl⟩
    | blank c | lineComment t => exact ⟨_, _, ts, h, rfl⟩
    | lexeme kind t =>
      obtain ⟨ts', h'⟩ := tokens_push_ok _ h
      exact ⟨_, _, ts', h', rfl⟩
    | broken cause t => cases h

/-! ### Whole texts

Texts that are put one below the other have the words of both, if the first one has been ended. -/

/-- The words of a text in these pieces. -/
def wordsOfText (ps : List Piece) : List Word :=
  wordsOf false ps ++ closing (endsAfter false ps)

/-- **A text that has tokens** is cut into whole pieces without remainder, and its tokens are the
ones of the pieces. -/
theorem tokenize_eq_ok_iff {text : String} {ts : Tokens} :
    tokenize text = .ok ts ↔
      ∃ ps, split text.toList = (ps, []) ∧ (∀ q ∈ ps, q.isWhole) ∧
        ts = ⟨tokensOf .start false ps ++
          if endsAfter false ps then [.lineEnd (Position.start.past (textOf ps))] else [],
          Position.start.past (textOf ps)⟩ := by
  rw [tokenize, Lexing.ofText]
  constructor
  · intro h
    obtain ⟨ps, left, hsplit⟩ : ∃ ps left, split text.toList = (ps, left) := ⟨_, _, rfl⟩
    rw [hsplit] at h ⊢
    obtain ⟨rfl, hwhole⟩ := Lexing.whole_of_tokens h
    refine ⟨ps, rfl, hwhole, ?_⟩
    rw [Lexing.tokens_ofPieces hwhole] at h
    exact (Except.ok.inj h).symm
  · rintro ⟨ps, hsplit, hwhole, rfl⟩
    rw [hsplit, Lexing.tokens_ofPieces hwhole]

/-- A text put together from pieces that stand has the tokens of these pieces. -/
theorem tokenize_textOf {ps : List Piece} (hstand : Stand ps []) (hwhole : ∀ q ∈ ps, q.isWhole) :
    tokenize (String.ofList (textOf ps)) =
      .ok ⟨tokensOf .start false ps ++
        if endsAfter false ps then [.lineEnd (Position.start.past (textOf ps))] else [],
        Position.start.past (textOf ps)⟩ := by
  have hsplit := split_of_stand hstand
  rw [List.append_nil, split, List.append_nil] at hsplit
  exact tokenize_eq_ok_iff.2 ⟨ps, by simpa using hsplit, hwhole, rfl⟩

/-- **The tokens of a text put together from pieces that stand** are the words of the pieces. -/
theorem tokenize_of_stand {ps : List Piece} (hstand : Stand ps []) (hwhole : ∀ q ∈ ps, q.isWhole) :
    ∃ ts, tokenize (String.ofList (textOf ps)) = .ok ts ∧
      ts.list.map Token.word = wordsOfText ps := by
  refine ⟨_, tokenize_textOf hstand hwhole, ?_⟩
  rw [List.map_append, word_tokensOf, wordsOfText, closing]
  split <;> rfl

theorem Stand.before_newline {ps : List Piece} {rest : List Char} (h : Stand ps rest)
    (hwhole : ∀ q ∈ ps, q.isWhole) (s : List Char) : Stand ps (rest ++ '\n' :: s) := by
  induction ps with
  | nil => trivial
  | cons p ps ih =>
    refine ⟨?_, ih h.2 fun q hq => hwhole q (List.mem_cons_of_mem _ hq)⟩
    rw [← List.append_assoc]
    exact h.1.before_newline (Piece.isWhole_iff.1 (hwhole p List.mem_cons_self)) s

/-- **The tokens of a text below another one** stand behind the tokens of the latter. -/
theorem tokenize_below {head : String} {ts : Tokens} (hhead : tokenize head = .ok ts)
    {ps : List Piece} (hstand : Stand ps []) (hwhole : ∀ q ∈ ps, q.isWhole) :
    ∃ more stop, tokenize (head ++ "\n" ++ String.ofList (textOf ps)) = .ok ⟨ts.list ++ more, stop⟩ ∧
      more.map Token.word = wordsOfText ps := by
  obtain ⟨qs, hsplit, hqs, rfl⟩ := tokenize_eq_ok_iff.1 hhead
  have hqstand : Stand qs [] := by simpa [hsplit] using stand_split head.toList
  have htext : textOf qs = head.toList := by simpa [hsplit] using split_text head.toList
  have hall : Stand (qs ++ .newline :: ps) [] := by
    rw [stand_append, stand_cons]
    refine ⟨?_, Piece.stands_of_next (c := '\n') rfl, hstand⟩
    simpa [textOf] using hqstand.before_newline hqs (textOf ps)
  have hwholes : ∀ q ∈ qs ++ .newline :: ps, q.isWhole := by
    intro q hq
    rcases List.mem_append.1 hq with hq | hq
    · exact hqs q hq
    · rcases List.mem_cons.1 hq with rfl | hq
      · rfl
      · exact hwhole q hq
  have hlines : head ++ "\n" ++ String.ofList (textOf ps) =
      String.ofList (textOf (qs ++ .newline :: ps)) := by
    have hjoined : textOf (qs ++ .newline :: ps) = head.toList ++ '\n' :: textOf ps := by
      rw [← htext]
      exact List.flatMap_append
    rw [hjoined]
    simp [← String.toList_inj]
  -- the end of the line stands for the end of the text above
  have hjoin : tokensOf .start false (qs ++ .newline :: ps) =
      tokensOf .start false qs ++
        (if endsAfter false qs then [.lineEnd (Position.start.past (textOf qs))] else []) ++
        tokensOf ((Position.start.past (textOf qs)).next '\n') false ps := by
    rw [tokensOf_append, tokensOf, List.append_assoc]
  have hends : endsAfter false (qs ++ .newline :: ps) = endsAfter false ps := by
    rw [endsAfter_append, endsAfter]
  refine ⟨tokensOf ((Position.start.past (textOf qs)).next '\n') false ps ++
    if endsAfter false ps then [.lineEnd (Position.start.past (textOf (qs ++ .newline :: ps)))]
    else [], Position.start.past (textOf (qs ++ .newline :: ps)), ?_, ?_⟩
  · rw [hlines, tokenize_textOf hall hwholes, hjoin, hends, List.append_assoc]
  · rw [List.map_append, word_tokensOf, wordsOfText, closing]
    split <;> rfl

/-! ### The words of a text are words -/

/-- A word that a text can have: a token of its kind, or a line end. -/
def Word.IsLexed (w : Word) : Prop :=
  w = .lineEnd ∨ w.kind.Writes w.text

theorem mem_wordsOf {ends : Bool} {ps : List Piece} {w : Word} (h : w ∈ wordsOf ends ps) :
    w = .lineEnd ∨ ∃ kind t, .lexeme kind t ∈ ps ∧ w = ⟨kind, String.ofList t⟩ := by
  have hclosing {b : Bool} (hw : w ∈ closing b) : w = .lineEnd := by
    cases b <;> simp_all [closing]
  induction ps generalizing ends with
  | nil => cases h
  | cons p ps ih =>
    have htail (hw : ∃ ends', w ∈ wordsOf ends' ps) :
        w = .lineEnd ∨ ∃ kind t, .lexeme kind t ∈ p :: ps ∧ w = ⟨kind, String.ofList t⟩ := by
      obtain ⟨ends', hw⟩ := hw
      refine (ih hw).imp_right ?_
      rintro ⟨kind, t, hmem, rfl⟩
      exact ⟨kind, t, List.mem_cons_of_mem _ hmem, rfl⟩
    cases p with
    | newline | blockComment t =>
      rcases List.mem_append.1 h with hw | hw
      · exact Or.inl (hclosing hw)
      · exact htail ⟨_, hw⟩
    | lexeme kind t =>
      rcases List.mem_cons.1 h with rfl | hw
      · exact Or.inr ⟨kind, t, List.mem_cons_self, rfl⟩
      · exact htail ⟨_, hw⟩
    | blank c | lineComment t | broken cause t => exact htail ⟨_, h⟩

theorem Stand.of_mem {ps : List Piece} {rest : List Char} (h : Stand ps rest) {p : Piece}
    (hp : p ∈ ps) : ∃ r, p.Stands r := by
  induction ps with
  | nil => cases hp
  | cons q ps ih =>
    rcases List.mem_cons.1 hp with rfl | hp
    · exact ⟨_, h.1⟩
    · exact ih h.2 hp

/-- **Every token of a text is a word of its kind**, line ends apart. -/
theorem isLexed_of_tokenize {text : String} {ts : Tokens} (h : tokenize text = .ok ts) {t : Token}
    (ht : t ∈ ts.list) : t.word.IsLexed := by
  obtain ⟨ps, hsplit, -, rfl⟩ := tokenize_eq_ok_iff.1 h
  have hstand : Stand ps [] := by simpa [hsplit] using stand_split text.toList
  rcases List.mem_append.1 ht with ht | ht
  · have hw : t.word ∈ wordsOf false ps := by
      rw [← word_tokensOf .start]
      exact List.mem_map_of_mem ht
    rcases mem_wordsOf hw with hw | ⟨kind, u, hmem, hw⟩
    · exact Or.inl hw
    · obtain ⟨r, hr⟩ := hstand.of_mem hmem
      obtain ⟨c, cs, -, hnext⟩ := hr.next
      refine Or.inr ?_
      rw [hw]
      simpa [Kind.Writes] using Piece.stands_alone hnext
  · split at ht
    · exact Or.inl (congrArg Token.word (List.mem_singleton.1 ht))
    · cases ht

end Multicast.Source
