import Multicast.Proofs.Hooked
import Multicast.Proofs.Wordwise

/-!
# Layout does not matter

A text with the same tokens can be written without looking at the layout of the first one: the words
one after another, with a blank between them and a newline for every line end. What has to be shown
is that no word runs on into the blank behind it, so that the words are cut as they were put
together, and that every newline is taken for a line end again. The latter needs something of the
words: a line end stands only directly behind a word that ends a statement, and behind such a word a
text does not end (`InPlace`). The words of every text are so.

Together with `alike_contents` this makes layout invisible to the readers of files: texts with the
same words are read alike, apart from places.

## Line ends as words

A line end that ends a statement is a token. In a text that is written word by word it comes out again
only where a newline is written behind a word that ends a statement, and it must not come out anywhere
else: so a newline is written for each line end and blanks are written otherwise. That every line end of a
text is in its place is proved of the words of any pieces, from the rule by which they come about.

The other half is what parsers make of words (`Multicast.Proofs.Wordwise`).
-/

namespace Multicast

namespace Source

/-! ### Blanks behind words -/

theorem stands_blank (rest : List Char) : (Piece.blank ' ').Stands rest :=
  (free_space.stand rest).1

/-! ### Line ends in their places -/

/-- **Line ends are in their places**: each stands directly behind a word that ends a statement, and
the last word ends none. A line end may come first if `ends` holds. -/
def InPlace : Bool → List Word → Prop
  | ends, [] => ends = false
  | ends, w :: ws => (w = .lineEnd → ends = true) ∧ InPlace w.endsStatement ws

/-- No word of a text is written like a line end. -/
theorem word_ne_lineEnd {kind : Kind} {word : String} (h : kind.Writes word) :
    (⟨kind, word⟩ : Word) ≠ .lineEnd := by
  rintro ⟨⟩
  revert h
  decide

/-- **In the words of pieces line ends are in their places**, up to the end of the text. -/
theorem inPlace_wordsOf {ps : List Piece}
    (h : ∀ kind t, .lexeme kind t ∈ ps → kind.Writes (String.ofList t)) (ends : Bool) :
    InPlace ends (wordsOf ends ps ++ closing (endsAfter ends ps)) := by
  induction ps generalizing ends with
  | nil =>
    cases ends <;>
      simp [wordsOf, endsAfter, closing, InPlace, Word.endsStatement, Word.lineEnd,
        Kind.endsStatement]
  | cons p ps ih =>
    have hps := ih fun kind t ht => h kind t (List.mem_cons_of_mem p ht)
    -- a line that ends here ends a statement if one is due, and then none is
    have hline :
        InPlace ends (closing ends ++ (wordsOf false ps ++ closing (endsAfter false ps))) := by
      cases ends with
      | false => exact hps false
      | true => exact ⟨fun _ => rfl, hps false⟩
    cases p with
    | newline =>
      rw [wordsOf, endsAfter, List.append_assoc]
      exact hline
    | blockComment t =>
      rw [wordsOf, endsAfter, List.append_assoc]
      cases t.contains '\n' with
      | false => simpa [closing] using hps ends
      | true => simpa using hline
    | lexeme kind t =>
      exact ⟨fun heq => (word_ne_lineEnd (h kind t List.mem_cons_self) heq).elim, hps _⟩
    | blank c | lineComment t | broken cause t => exact hps ends

/-- The words of a text can be written, and its line ends are in their places. -/
theorem inPlace_of_tokenize {text : String} {ts : Tokens} (h : tokenize text = .ok ts) :
    InPlace false (ts.list.map Token.word) := by
  obtain ⟨ps, hsplit, -, rfl⟩ := tokenize_eq_ok_iff.1 h
  have hstand : Stand ps [] := by simpa [hsplit] using stand_split text.toList
  have hwrites (kind : Kind) (t : List Char) (ht : .lexeme kind t ∈ ps) :
      kind.Writes (String.ofList t) := by
    obtain ⟨r, hr⟩ := hstand.of_mem ht
    obtain ⟨c, cs, -, hnext⟩ := hr.next
    simpa [Kind.Writes] using Piece.stands_alone hnext
  have hclosing (b : Bool) (p : Position) :
      (if b then [Token.lineEnd p] else []).map Token.word = closing b := by
    cases b <;> rfl
  rw [List.map_append, word_tokensOf, hclosing]
  exact inPlace_wordsOf hwrites false

/-! ### Words between blanks

No word goes on with a blank. A word and a blank are therefore two pieces, whatever the word is. -/

/-- A word as a piece of a text. -/
def Word.piece (w : Word) : Piece :=
  if w = .lineEnd then .newline else .lexeme w.kind w.text.toList

/-- Words with a blank between them. -/
def spaced : List Word → List Piece
  | [] => []
  | [w] => [w.piece]
  | w :: w' :: ws => w.piece :: .blank ' ' :: spaced (w' :: ws)

theorem Word.text_piece (w : Word) : w.piece.text = w.text.toList := by
  rw [piece]
  split
  next h => rw [h]; rfl
  next => rfl

theorem Word.isWhole_piece (w : Word) : w.piece.isWhole = true := by
  rw [piece]
  split <;> rfl

/-- A word that a text can have stands before a blank, and at the end. -/
theorem Word.IsLexed.stands {w : Word} (h : w.IsLexed) {rest : List Char}
    (hrest : rest = [] ∨ rest.head? = some ' ') : w.piece.Stands rest := by
  rw [piece]
  split
  next => exact Piece.stands_of_next (c := '\n') rfl
  next hne =>
    have hwrites : (Piece.lexeme w.kind w.text.toList).Stands [] := h.resolve_left hne
    refine hwrites.before (by simp) fun d hd => ?_
    rcases hrest with rfl | hrest
    · cases hd
    · obtain rfl : ' ' = d := by simpa [hrest] using hd
      exact Piece.sticksTo_space (by simp) w.kind w.text.toList

theorem textOf_spaced (ws : List Word) :
    textOf (spaced ws) = (" ".intercalate (ws.map Word.text)).toList := by
  induction ws using spaced.induct with
  | case1 => rfl
  | case2 w =>
    rw [spaced, textOf, List.flatMap_singleton, w.text_piece]
    rfl
  | case3 w w' ws ih =>
    rw [spaced, textOf, List.flatMap_cons, List.flatMap_cons, ← textOf, ih, w.text_piece]
    simp [String.intercalate_cons_cons]

/-- **Words between blanks stand.** -/
theorem stand_spaced {ws : List Word} (h : ∀ w ∈ ws, w.IsLexed) {rest : List Char}
    (hrest : rest = [] ∨ rest.head? = some ' ') : Stand (spaced ws) rest := by
  induction ws using spaced.induct with
  | case1 => trivial
  | case2 w => exact ⟨(h w List.mem_cons_self).stands hrest, trivial⟩
  | case3 w w' ws ih =>
    refine ⟨(h w List.mem_cons_self).stands (.inr rfl), stands_blank _, ?_⟩
    exact ih fun v hv => h v (List.mem_cons_of_mem w hv)

theorem isWhole_spaced (ws : List Word) : ∀ q ∈ spaced ws, q.isWhole = true := by
  induction ws using spaced.induct with
  | case1 => simp [spaced]
  | case2 w => simp [spaced, w.isWhole_piece]
  | case3 w w' ws ih =>
    simp only [spaced, List.forall_mem_cons]
    exact ⟨w.isWhole_piece, rfl, ih⟩

/-- A line end as a piece is taken for a word again where a statement ends. -/
theorem wordsOf_cons_piece {ends : Bool} {w : Word} (h : w = .lineEnd → ends = true) (ps : List Piece) :
    wordsOf ends (w.piece :: ps) = w :: wordsOf w.endsStatement ps ∧
      endsAfter ends (w.piece :: ps) = endsAfter w.endsStatement ps := by
  rw [Word.piece]
  split
  next heq =>
    rw [wordsOf, endsAfter, h heq, heq]
    exact ⟨rfl, rfl⟩
  next => simp [wordsOf, endsAfter]

/-- **Between blanks the words come back**, if line ends are in their places. -/
theorem wordsOf_spaced {ws : List Word} {ends : Bool} (h : InPlace ends ws) :
    wordsOf ends (spaced ws) = ws ∧ endsAfter ends (spaced ws) = false := by
  induction ws using spaced.induct generalizing ends with
  | case1 => exact ⟨rfl, h⟩
  | case2 w =>
    obtain ⟨hw, hends⟩ := h
    rw [spaced, (wordsOf_cons_piece hw []).1, (wordsOf_cons_piece hw []).2]
    exact ⟨rfl, hends⟩
  | case3 w w' ws ih =>
    obtain ⟨hw, hrest⟩ := h
    rw [spaced, (wordsOf_cons_piece hw _).1, (wordsOf_cons_piece hw _).2, wordsOf, endsAfter,
      (ih hrest).1, (ih hrest).2]
    · exact ⟨rfl, rfl⟩
    all_goals simp

/-- A word more between blanks, without a text of its own. -/
theorem intercalate_append_empty (text : String) (texts : List String) :
    " ".intercalate (text :: texts ++ [""]) = " ".intercalate (text :: texts) ++ " " := by
  induction texts generalizing text with
  | nil => simp [String.intercalate_cons_cons]
  | cons text' texts ih =>
    rw [List.cons_append, List.cons_append, String.intercalate_cons_cons, ← List.cons_append, ih,
      String.intercalate_cons_cons]
    simp only [String.append_assoc]

/-- **The words of a text, written one after another**, are the words of what is written. It makes
no difference whether the end of the text is counted as a word without a text. -/
theorem tokenize_respaced {text : String} {ts : Tokens} (h : tokenize text = .ok ts)
    {behind : List String} (hbehind : behind = [] ∨ behind = [""]) :
    ∃ ts', tokenize (" ".intercalate (ts.list.map Token.text ++ behind)) = .ok ts' ∧
      ts'.list.map Token.word = ts.list.map Token.word := by
  obtain ⟨ws, hws⟩ : ∃ ws, ws = ts.list.map Token.word := ⟨_, rfl⟩
  have htexts : ts.list.map Token.text = ws.map Word.text := by
    rw [hws, List.map_map]
    rfl
  have hlexed : ∀ w ∈ ws, w.IsLexed := by
    rw [hws]
    exact List.forall_mem_map.2 fun t ht => isLexed_of_tokenize h ht
  have hplace : InPlace false ws := hws ▸ inPlace_of_tokenize h
  obtain ⟨hwords, hends⟩ := wordsOf_spaced hplace
  obtain ⟨qs, hqs, htext⟩ : ∃ qs, (qs = [] ∨ qs = [Piece.blank ' ']) ∧
      " ".intercalate (ws.map Word.text ++ behind) = String.ofList (textOf (spaced ws ++ qs)) := by
    have hnone : " ".intercalate (ws.map Word.text) = String.ofList (textOf (spaced ws)) := by
      rw [textOf_spaced, String.ofList_toList]
    rcases hbehind with rfl | rfl
    · exact ⟨[], .inl rfl, by rw [List.append_nil, List.append_nil, hnone]⟩
    · cases hws' : ws.map Word.text with
      | nil =>
        obtain rfl := List.map_eq_nil_iff.1 hws'
        exact ⟨[], .inl rfl, rfl⟩
      | cons first texts =>
        refine ⟨[.blank ' '], .inr rfl, ?_⟩
        rw [intercalate_append_empty, ← hws', hnone, textOf, textOf, List.flatMap_append,
          String.ofList_append]
        rfl
  -- a blank at the end adds no word, and a text that has tokens leaves no line end due there
  have hblanks : Stand qs [] ∧ (textOf qs ++ [] = [] ∨ (textOf qs ++ []).head? = some ' ') ∧
      (∀ q ∈ qs, q.isWhole = true) ∧ wordsOf false qs = [] ∧ endsAfter false qs = false := by
    rcases hqs with rfl | rfl
    · simp [wordsOf, endsAfter]
    · simp [stands_blank, wordsOf, endsAfter, Piece.isWhole]
  obtain ⟨hstand, hhead, hwhole, hnone, hnot⟩ := hblanks
  obtain ⟨ts', hts', hsame⟩ := tokenize_of_stand
    (stand_append.2 ⟨stand_spaced hlexed hhead, hstand⟩)
    fun q hq => (List.mem_append.1 hq).elim (isWhole_spaced ws q) (hwhole q)
  refine ⟨ts', by rw [htexts, htext, hts'], ?_⟩
  rw [hsame, wordsOfText, wordsOf_append, endsAfter_append, hwords, hends, hnone, hnot, ← hws]
  simp [closing]

end Source

open Source

namespace Syntax

/-- **Layout does not matter.** What a text is read as depends on its words alone. The words of a
text that has tokens can be written one after another, with blanks between them and a newline for
every line end, and the text that is written has the same words. And two texts with the same words
are read as files that have the same package name, the same imports, the same objects and references
of the same names in the same order, or both cannot be read, for the same cause. -/
theorem parseFile_of_sameWords (file path : String) :
    (∀ text ts, tokenize text = .ok ts → ∀ behind, behind = [] ∨ behind = [""] →
      ∃ ts', tokenize (" ".intercalate (ts.list.map Token.text ++ behind)) = .ok ts' ∧
        SameWords ts'.list ts.list) ∧
    ∀ text text' ts ts', tokenize text = .ok ts → tokenize text' = .ok ts' →
      SameWords ts.list ts'.list →
      (∃ f f', parseFile file text path = .ok f ∧ parseFile file text' path = .ok f' ∧
        f.package = f'.package ∧ f.imports = f'.imports ∧
        f.declarations.map Declaration.object = f'.declarations.map Declaration.object ∧
        f.references.map Reference.name = f'.references.map Reference.name) ∨
      ∃ d d', parseFile file text path = .error d ∧ parseFile file text' path = .error d' ∧
        d.cause = d'.cause := by
  refine ⟨fun text ts hts behind hbehind => tokenize_respaced hts hbehind, ?_⟩
  intro text text' ts ts' hts hts' hsame
  rw [parseFile, parseFile, readText, readText, hts, hts']
  dsimp only
  have halike := alike_contents path ts.list ts'.list hsame
  revert halike
  generalize contents path ts.list = result
  generalize contents path ts'.list = result'
  rintro (⟨hvalue, hreferences, -⟩ | hcause)
  · refine .inl ⟨_, _, rfl, rfl, hvalue.package, hvalue.imports, ?_, hreferences⟩
    rw [← List.forall₂_eq_eq_eq, List.forall₂_map_left_iff, List.forall₂_map_right_iff]
    exact hvalue.declarations
  · exact .inr ⟨_, _, rfl, rfl, hcause⟩

/-- A file with comments, and with words that touch each other. -/
def crampedText : String :=
  "/* glass */package shelf;import\"fmt\"\n" ++
    "type Cup struct\x7blid*Lid;depth[2]int\x7d// and so on\nvar x=.5e+3"

theorem parseFile_crampedText :
    ∃ ts f f', tokenize crampedText = .ok ts ∧ parseFile "cup.go" crampedText "m/shelf" = .ok f ∧
      parseFile "cup.go" (" ".intercalate (ts.list.map Token.text)) "m/shelf" = .ok f' ∧
      f.package = f'.package ∧ f.imports = f'.imports ∧
      f.declarations.map Declaration.object = f'.declarations.map Declaration.object ∧
      f.references.map Reference.name = f'.references.map Reference.name := by
  obtain ⟨hwritten, hread⟩ := parseFile_of_sameWords "cup.go" "m/shelf"
  have hchars : crampedText.toList = _ := String.toList_append
  have hfile : (parseFile "cup.go" crampedText "m/shelf").toOption.any (fun _ => true) = true := by
    rw [toOption_parseFile, hchars, String.toList_ofList, String.toList_ofList]
    decide +kernel
  obtain ⟨f, hf, -⟩ := exists_ok_of_any hfile
  obtain ⟨ts, _, _, _, hts, -⟩ := parseFile_eq_ok.1 hf
  obtain ⟨ts', hts', hsame⟩ := hwritten crampedText ts hts [] (.inl rfl)
  rw [List.append_nil] at hts'
  rcases hread _ _ ts ts' hts hts' hsame.symm with ⟨f₀, f', hf₀, hf', hall⟩ | ⟨d, -, hd, -⟩
  · obtain rfl := Except.ok.inj (hf.symm.trans hf₀)
    exact ⟨ts, f, f', hts, hf, hf', hall⟩
  · cases hf.symm.trans hd

end Syntax

end Multicast
