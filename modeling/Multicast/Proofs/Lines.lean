import Mathlib.Data.List.Forall2
import Multicast.Hook.HookFile
import Multicast.Proofs.FileReads
import Multicast.Proofs.Spelling

/-!
# Texts written line by line

A generated file is a list of lines. Each of them is cut into tokens by itself, since no token but a
raw string goes on behind the end of a line, and such a string ends in the line it is written in. So
the words of a line are known without its neighbours (`Lexes`), and the words of the text are those
of its lines one after the other (`tokenize_lines`).

## Why lines can be read one at a time

Cutting a text and cutting its lines comes to the same if no piece goes over the end of a line. A comment
or a raw string could; a line that is cut into whole lexemes and blanks has neither left open. The line
end itself is a word or not, as the word in front of it demands, and this is known of each line from its
own words.
-/

namespace Multicast

namespace Source

/-- **The words of a line**, the line end that ends a statement included. -/
def Lexes (line : String) (words : List Word) : Prop :=
  ∃ ps, line.toList = textOf ps ∧ Stand ps [] ∧ (∀ p ∈ ps, p.isWhole) ∧ wordsOfText ps = words

/-- A text of these lines. -/
def unlines (lines : List String) : String :=
  String.join (lines.map (· ++ "\n"))

theorem toList_unlines (lines : List String) :
    (unlines lines).toList = lines.flatMap fun line => line.toList ++ ['\n'] := by
  have hfold (lines : List String) (before : String) :
      ((lines.map (· ++ "\n")).foldl (· ++ ·) before).toList =
        before.toList ++ lines.flatMap fun line => line.toList ++ ['\n'] := by
    induction lines generalizing before with
    | nil => simp
    | cons line lines ih => simp [ih]
  exact hfold lines ""

/-- **The words of a text are those of its lines.** -/
theorem tokenize_lines {lines : List String} {wss : List (List Word)}
    (h : List.Forall₂ Lexes lines wss) :
    ∃ ts, tokenize (unlines lines) = .ok ts ∧ ts.list.map Token.word = wss.flatten := by
  obtain ⟨ps, htext, hstand, hwhole, hwords, hends⟩ : ∃ ps, (unlines lines).toList = textOf ps ∧
      Stand ps [] ∧ (∀ p ∈ ps, p.isWhole) ∧ wordsOf false ps = wss.flatten ∧
        endsAfter false ps = false := by
    rw [toList_unlines]
    induction h with
    | nil => exact ⟨[], rfl, trivial, by simp, rfl, rfl⟩
    | @cons line words lines wss hline _ ih =>
      obtain ⟨ps, htext, hstand, hwhole, hwords⟩ := hline
      obtain ⟨qs, htext', hstand', hwhole', hwords', hends'⟩ := ih
      refine ⟨ps ++ .newline :: qs, ?_, ?_, ?_, ?_, ?_⟩
      · simp [List.flatMap_cons, htext, htext', textOf]
      · rw [stand_append, stand_cons]
        refine ⟨?_, Piece.stands_of_next (c := '\n') rfl, hstand'⟩
        simpa [textOf] using hstand.before_newline hwhole (textOf qs)
      · intro p hp
        rcases List.mem_append.1 hp with hp | hp
        · exact hwhole p hp
        · rcases List.mem_cons.1 hp with rfl | hp
          · rfl
          · exact hwhole' p hp
      · rw [wordsOf_append, wordsOf, hwords', List.flatten_cons, ← hwords, wordsOfText,
          List.append_assoc]
      · rw [endsAfter_append, endsAfter, hends']
  have hlines : unlines lines = String.ofList (textOf ps) := by
    rw [← htext, String.ofList_toList]
  obtain ⟨ts, hts, hmap⟩ := tokenize_of_stand hstand hwhole
  refine ⟨ts, hlines ▸ hts, ?_⟩
  rw [hmap, wordsOfText, hwords, hends]
  exact List.append_nil _

/-! ### Lines of some kinds

Lines of a generated file are words that are always the same, with names among them. So their words are
known as soon as the names are names. -/

/-- A line of pieces that stand anywhere. -/
theorem Stable.lexes {ps : List Piece} (h : Stable ps) {line : String}
    (hline : line.toList = textOf ps) : Lexes line (wordsOfText ps) :=
  ⟨ps, hline, h.stand [] (by simp [Clear]),
    fun p hp => Piece.isWhole_of_isInline (h.inline p hp), rfl⟩

theorem Stable.wordsOfText {ps : List Piece} (h : Stable ps) :
    wordsOfText ps = lexemes ps ++ closing (endsAfter false ps) := by
  rw [Source.wordsOfText, wordsOf_inline h.inline]

/-- A fixed line, given by its characters. -/
theorem lexes_of_split {cs : List Char} {words : List Word}
    (h : (splitFast cs.length cs).2 = [] ∧ ((splitFast cs.length cs).1.all Piece.isWhole) = true ∧
      wordsOfText (splitFast cs.length cs).1 = words) : Lexes (String.ofList cs) words := by
  rw [← split_eq_splitFast] at h
  obtain ⟨hleft, hwhole, hwords⟩ := h
  refine ⟨(split cs).1, ?_, ?_, List.all_eq_true.1 hwhole, hwords⟩
  · have htext := split_text cs
    rw [hleft, List.append_nil] at htext
    rw [String.toList_ofList, textOf, htext]
  · rw [← hleft]
    exact stand_split _

theorem lexes_empty : Lexes "" [] :=
  ⟨[], rfl, trivial, by simp, rfl⟩

/-- A line that is a comment has no words. -/
theorem lexes_comment {line : String} {text : List Char} (hline : line.toList = '/' :: '/' :: text)
    (htext : '\n' ∉ text) : Lexes line [] := by
  refine ⟨[.lineComment line.toList], by simp, ⟨?_, trivial⟩, by simp [Piece.isWhole], rfl⟩
  have hblank : Text.isBlank '/' = false := by decide
  have hall : ∀ c ∈ text, decide (c ≠ '\n') = true := fun c hc =>
    decide_eq_true fun heq => htext (heq ▸ hc)
  have hnext : Piece.next '/' ('/' :: text) = some (.lineComment ('/' :: '/' :: text), []) := by
    unfold Piece.next
    rw [if_neg (by decide), hblank, if_neg (by decide), if_pos (by simp),
      List.takeWhile_cons_of_pos (by decide), List.dropWhile_cons_of_pos (by decide),
      List.takeWhile_eq_self_iff.2 hall, List.dropWhile_eq_nil_iff.2 hall]
  have hstands := Piece.stands_of_next hnext
  rwa [← hline] at hstands

theorem lexes_header : Lexes HookFile.header [] :=
  lexes_comment rfl (by decide)

/-! ### Lines in a row -/

/-- The words of lines, one line after the other. -/
def LexesAll (lines : List String) (words : List Word) : Prop :=
  ∃ wss, List.Forall₂ Lexes lines wss ∧ wss.flatten = words

theorem LexesAll.nil : LexesAll [] [] :=
  ⟨[], .nil, rfl⟩

theorem LexesAll.cons {line : String} {lines : List String} {words more : List Word}
    (h : Lexes line words) (hs : LexesAll lines more) :
    LexesAll (line :: lines) (words ++ more) := by
  obtain ⟨wss, hwss, rfl⟩ := hs
  exact ⟨words :: wss, .cons h hwss, rfl⟩

theorem LexesAll.append {lines others : List String} {words more : List Word}
    (h : LexesAll lines words) (h' : LexesAll others more) :
    LexesAll (lines ++ others) (words ++ more) := by
  obtain ⟨wss, hwss, rfl⟩ := h
  obtain ⟨wss', hwss', rfl⟩ := h'
  exact ⟨wss ++ wss', List.rel_append hwss hwss', List.flatten_append⟩

end Source

/-! ### The lines of a header

The package clause and the imports of a file are lines, too. So a file of lines is read from the words of
its lines, with the header in front. -/

open Source Syntax

theorem literalEnd_of_plain {text : List Char} (h : ∀ c ∈ text, c ≠ '"' ∧ c ≠ '\\' ∧ c ≠ '\n') :
    literalEnd '"' (text ++ ['"']) = ⟨true, text ++ ['"'], []⟩ := by
  induction text with
  | nil => rfl
  | cons c text ih =>
    obtain ⟨⟨hquote, hslash, hline⟩, htext⟩ := List.forall_mem_cons.1 h
    rw [List.cons_append, literalEnd.eq_def]
    simp [hquote, hslash, hline, ih htext, Ending.push]

/-- A path in quotes is a string. -/
theorem Syntax.Importable.writes_quoted {path : String} (h : Importable path) :
    Kind.string.Writes (quoted path) := by
  have htext : (quoted path).toList = '"' :: (path.toList ++ ['"']) := by simp [quoted]
  have hblank : Text.isBlank '"' = false := by decide
  have hletter : Text.isLetter '"' = false := Text.isLetter_of_lt (by decide)
  have hnext : Piece.next '"' (path.toList ++ ['"']) =
      some (.lexeme .string (quoted path).toList, []) := by
    unfold Piece.next
    simp [hblank, hletter, startsNumber, literalEnd_of_plain h.plain, Ending.piece, htext]
  exact Piece.stands_of_next hnext

theorem lexes_import {path : String} (h : Importable path) :
    Lexes ("\t\"" ++ path ++ "\"") [⟨.string, quoted path⟩, .lineEnd] := by
  refine ⟨[.blank '\t', .lexeme .string (quoted path).toList], by simp [quoted], ?_, by
    simp [Piece.isWhole], by simp [wordsOfText, wordsOf, endsAfter, Word.endsStatement,
      Kind.endsStatement, closing]⟩
  exact ⟨Piece.stands_of_next (c := '\t') rfl, h.writes_quoted, trivial⟩

theorem lexesAll_importLines {imports : List String} (h : ∀ path ∈ imports, Importable path) :
    LexesAll (HookFile.importLines imports) (importWords imports) := by
  rw [HookFile.importLines, importWords]
  split
  next => exact .nil
  next =>
    have hpaths : LexesAll (imports.map fun path => "\t\"" ++ path ++ "\"")
        (imports.flatMap fun path => [⟨.string, quoted path⟩, .lineEnd]) := by
      clear * - h
      induction imports with
      | nil => exact .nil
      | cons path imports ih =>
        obtain ⟨hpath, himports⟩ := List.forall_mem_cons.1 h
        exact .cons (lexes_import hpath) (ih himports)
    have hopen : Lexes "import (" [⟨.keyword .importKw, "import"⟩, ⟨.leftParen, "("⟩] :=
      lexes_of_split (by decide)
    have hclose : Lexes ")" [⟨.rightParen, ")"⟩, .lineEnd] := lexes_of_split (by decide)
    have hblock := (LexesAll.append (.cons hopen .nil) hpaths).append
      (.cons hclose (.cons lexes_empty .nil))
    simpa using hblock

theorem lexes_packageLine {name : String} (h : Kind.identifier.Writes name) :
    Lexes ("package " ++ name) [⟨.keyword .packageKw, "package"⟩, ⟨.identifier, name⟩, .lineEnd] := by
  have hstable : Stable ([.key .packageKw, .space] ++ [.name name]) :=
    ((stable_key .packageKw).append_free free_space (divided_cons (by decide))).append_stable
      (stable_name h)
  have hlexes : Lexes ("package " ++ name) _ := hstable.lexes (by simp [Keyword.text])
  rw [hstable.wordsOfText] at hlexes
  simpa [lexemes, Keyword.text, endsAfter, Word.endsStatement, Kind.endsStatement, closing]
    using hlexes

/-- **A file of lines is read** if its words are. -/
theorem parseFile_unlines {path : String} {lines : List String} {words : List Word}
    {post : Contents → List String → Prop} (hlines : LexesAll lines words)
    (h : (contents path).Reports words post (· = none)) (file : String) :
    ∃ c references, parseFile file (unlines lines) path =
        .ok ⟨file, c.package, c.imports, c.declarations, references⟩ ∧
      post c (references.map Reference.name) := by
  obtain ⟨wss, hwss, rfl⟩ := hlines
  obtain ⟨ts, hts, hwords⟩ := tokenize_lines hwss
  obtain ⟨c, references, hok, hpost⟩ := h ts.list [] hwords rfl
  rw [List.append_nil] at hok
  exact ⟨c, references, parseFile_eq_ok.2 ⟨ts, c, references, [], hts, hok, rfl⟩, hpost⟩

end Multicast
