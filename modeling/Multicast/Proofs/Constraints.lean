import Mathlib.Data.List.DropRight
import Multicast.Package.Loading
import Multicast.Proofs.FileReads
import Multicast.Proofs.Layout
import Multicast.Proofs.Pieces
import Multicast.Proofs.Rounds

/-!
# Build constraints before the package clause

Whether a file is ignored is told by its lines, and not by its tokens: a line that is a build constraint
with `ignore` says so, and the search for it ends at the first line that begins with `package` and a
space (`ignoredAmong_of_opens`). Where the package clause stands is told by the tokens: nothing but blanks,
comments and semicolons is before it (`exists_clause`), and whatever these are, any other clause may stand
behind them (`parsePackageName_of_leads`).

The two agree on the plain layout, with blanks before the clause on its line and a space behind the word
`package` (`isIgnored_of_plain`). In general they do not. A tab behind the word, or a comment on either side
of it, lets the search go on into the body; a comment with a line that begins like a clause ends it too soon.
So the text before the clause decides whether the file is ignored just if something is told in it
(`told_before_iff`).

## Lines and tokens

Two ways of cutting one text are compared. Cut into lines, the text before the clause is all lines above
the line of the clause, and the beginning of that line (`lines_clause`). Cut into pieces, it is blanks,
comments and semicolons up to the first keyword (`exists_clause`). What a line says depends on that line
alone (`verdict?`), and the first line that says something is heard (`ignoredAmong_eq`). So all that can
make a difference is the line of the clause, and the lines below it if nothing has been said up to there.

A line can be the inside of a comment, and the search does not know. This is why a comment may end the
search, and why a constraint inside of a comment is heard.
-/

namespace Multicast

open Source Syntax Multicast.Syntax.Parser

/-! ### Stretches of a text in two parts -/

namespace Text

section

variable {cut : Char → Bool} {c : Char} {s t : List Char}

/-- Cutting starts afresh behind a character that cuts. -/
theorem cutAt_append_cons (hc : cut c = true) (s t : List Char) :
    cutAt cut (s ++ c :: t) = cutAt cut s ++ cutAt cut t := by
  induction s with
  | nil => simp [cutAt, hc]
  | cons d s ih =>
    rw [List.cons_append, cutAt, cutAt, ih]
    split
    · rfl
    · cases hs : cutAt cut s with
      | nil => exact absurd hs (cutAt_ne_nil cut s)
      | cons first others => rfl

/-- **Two texts in a row** have the stretches of both, but for the last of one and the first of the
other, which make one stretch. -/
theorem cutAt_append (s : List Char) {t first : List Char} {others : List (List Char)}
    (ht : cutAt cut t = first :: others) :
    cutAt cut (s ++ t) = (cutAt cut s).dropLast ++ (s.rtakeWhile (!cut ·) ++ first) :: others := by
  induction s using List.reverseRecOn generalizing t first others with
  | nil => simpa [cutAt] using ht
  | append_singleton s c ih =>
    rw [List.append_assoc, List.singleton_append]
    cases hc : cut c with
    | true =>
      have hs : cutAt cut (s ++ [c]) = cutAt cut s ++ [[]] := cutAt_append_cons hc s []
      rw [cutAt_append_cons hc, ht, hs, List.dropLast_concat, List.rtakeWhile_concat_neg _ _ _ (by simp [hc]),
        List.nil_append]
    | false =>
      have hs : cutAt cut [c] = [[c]] := by simp [cutAt, hc]
      have hct : cutAt cut (c :: t) = (c :: first) :: others := by simp [cutAt, hc, ht]
      rw [ih hct, ih hs, List.dropLast_concat, List.rtakeWhile_concat_pos _ _ _ (by simp [hc]),
        List.append_assoc, List.singleton_append]

/-- The last part of a text that was cut is its longest end without a cut. -/
theorem cutAt_eq (cut : Char → Bool) (s : List Char) :
    cutAt cut s = (cutAt cut s).dropLast ++ [s.rtakeWhile (!cut ·)] := by
  have hnone : cutAt cut [] = [[]] := rfl
  simpa using cutAt_append s hnone

/-- Where nothing cuts there is one part. -/
theorem cutAt_of_uncut (h : ∀ c ∈ s, cut c = false) : cutAt cut s = [s] := by
  induction s with
  | nil => rfl
  | cons c s ih =>
    rw [cutAt, if_neg (by simp [h c List.mem_cons_self]), ih fun d hd => h d (List.mem_cons_of_mem _ hd)]

/-- The words before and behind a blank are told apart by it. -/
theorem words_append_cons (hc : isBlank c = true) (s t : List Char) :
    words (s ++ c :: t) = words s ++ words t := by
  rw [words, cutAt_append_cons hc, List.filter_append]
  rfl

/-- A word that the text does not end in is a word of it as well if the text goes on. -/
theorem mem_words_append {w : List Char} (hw : w ∈ words s) (hends : ¬w <:+ s) (t : List Char) :
    w ∈ words (s ++ t) := by
  obtain ⟨hw, hne⟩ := List.mem_filter.1 hw
  refine List.mem_filter.2 ⟨?_, hne⟩
  obtain ⟨first, others, ht⟩ := List.exists_cons_of_ne_nil (cutAt_ne_nil isBlank t)
  rw [cutAt_append s ht]
  rw [cutAt_eq] at hw
  rcases List.mem_append.1 hw with hw | hw
  · exact List.mem_append_left _ hw
  · obtain rfl := List.mem_singleton.1 hw
    exact absurd (List.rtakeWhile_suffix _ _) hends

/-- Of a text that ends in a character of no class to drop, nothing is dropped. -/
theorem rdropWhile_append {p : Char → Bool} {last : Char} (hlast : last ∈ s.getLast?)
    (hstop : ¬p last = true) (t : List Char) : (s ++ t).rdropWhile p = s ++ t.rdropWhile p := by
  obtain ⟨front, rfl⟩ := List.getLast?_eq_some_iff.1 (Option.mem_def.1 hlast)
  induction t using List.reverseRecOn with
  | nil => rw [List.append_nil, List.rdropWhile_concat_neg _ _ _ hstop, List.rdropWhile_nil, List.append_nil]
  | append_singleton t d ih =>
    rw [← List.append_assoc]
    by_cases hd : p d = true
    · rw [List.rdropWhile_concat_pos _ _ _ hd, List.rdropWhile_concat_pos _ _ _ hd, ih]
    · rw [List.rdropWhile_concat_neg _ _ _ hd, List.rdropWhile_concat_neg _ _ _ hd, List.append_assoc]

/-- Blanks are dropped on each side of a character that is none. -/
theorem trim_append {last : Char} (hlast : last ∈ s.getLast?) (hblank : isBlank last = false)
    (t : List Char) : trim (s ++ t) = s.dropWhile isBlank ++ t.rdropWhile isBlank := by
  obtain ⟨front, rfl⟩ := List.getLast?_eq_some_iff.1 (Option.mem_def.1 hlast)
  obtain ⟨kept, hkept⟩ : ∃ kept, (front ++ [last]).dropWhile isBlank = kept ++ [last] := by
    rw [List.dropWhile_append]
    split
    · exact ⟨[], by simp [hblank]⟩
    · exact ⟨_, rfl⟩
  have hfront : (front ++ [last] ++ t).dropWhile isBlank = kept ++ [last] ++ t := by
    rw [List.dropWhile_append, hkept, if_neg (by simp)]
  have hends : last ∈ (kept ++ [last]).getLast? := by simp
  rw [trim, strip_eq, hfront, hkept, rdropWhile_append hends (by simp [hblank])]

end

/-- Something comes after a start if the text has it as a prefix. -/
theorem isSome_after?_iff {start text : List Char} :
    (after? start text).isSome = true ↔ start <+: text := by
  rw [after?, ← List.isPrefixOf_iff_prefix]
  split <;> simp [*]

end Text

/-! ### What lines say

A line that opens the clause says that the file is read, and a constraint with `ignore` that it is not.
Both are looked for by what the line begins with. -/

/-- Whether a line is taken for the beginning of the package clause. -/
def opensClause (line : List Char) : Bool :=
  (Text.after? "package ".toList (Text.trim line)).isSome

/-- What a line says of its file, if anything: whether the file is ignored. -/
def verdict? (line : List Char) : Option Bool :=
  if opensClause line then some false
  else if saysIgnore (Text.trim line) then some true
  else none

/-- **The first line that says something is heard.** -/
theorem ignoredAmong_eq (lines : List (List Char)) :
    ignoredAmong lines = (lines.findSome? verdict?).getD false := by
  induction lines with
  | nil => rfl
  | cons line lines ih =>
    rw [ignoredAmong, List.findSome?_cons, verdict?, opensClause, ih]
    by_cases hopens : (Text.after? "package ".toList (Text.trim line)).isSome = true
    · rw [if_pos hopens, if_pos hopens]
      rfl
    · rw [if_neg hopens, if_neg hopens]
      cases saysIgnore (Text.trim line) <;> rfl

/-- Of two runs of lines the first that says something is decisive. -/
theorem ignoredAmong_append (above below : List (List Char)) :
    ignoredAmong (above ++ below) =
      ((above.findSome? verdict?).or (below.findSome? verdict?)).getD false := by
  rw [ignoredAmong_eq, List.findSome?_append]

/-- **The search ends at a line that is taken for the package clause**, wherever this line stands. -/
theorem ignoredAmong_of_opens {line : List Char} (h : opensClause line = true)
    (above below : List (List Char)) :
    ignoredAmong (above ++ line :: below) = ignoredAmong above := by
  have hline : verdict? line = some false := by rw [verdict?, if_pos h]
  rw [ignoredAmong_append, ignoredAmong_eq, List.findSome?_cons, hline]
  cases above.findSome? verdict? <;> rfl

/-- A line ends the search if it begins with the word and a space, but for blanks. -/
theorem opensClause_iff {line : List Char} :
    opensClause line = true ↔ "package ".toList <+: Text.trim line :=
  Text.isSome_after?_iff

/-- A line says that the file is ignored if it is a constraint of either form with the word among
its terms. -/
theorem saysIgnore_iff {line : List Char} :
    saysIgnore line = true ↔ ∃ start ∈ ["//go:build".toList, "// +build".toList], ∃ terms,
      line = start ++ terms ∧ "ignore".toList ∈ Text.words terms := by
  have hstart (start : List Char) : ((Text.after? start line).any fun terms =>
      (Text.words terms).contains "ignore".toList) = true ↔
        ∃ terms, line = start ++ terms ∧ "ignore".toList ∈ Text.words terms := by
    by_cases hstarts : start <+: line
    · obtain ⟨terms, rfl⟩ := hstarts
      simp [Text.after?, List.isPrefixOf_iff_prefix]
    · have hnone : Text.after? start line = none := by
        rw [← Option.not_isSome_iff_eq_none, Text.isSome_after?_iff]
        exact hstarts
      rw [hnone]
      refine ⟨fun h => (by cases h), ?_⟩
      rintro ⟨terms, rfl, -⟩
      exact absurd (List.prefix_append _ _) hstarts
  rw [saysIgnore, List.any_cons, List.any_cons, List.any_nil, Bool.or_false, Bool.or_eq_true, hstart, hstart]
  simp

/-! ### The line of the package clause -/

section

variable {line : List Char}

/-- What is left of a line with the word `package`. -/
theorem trim_clause (line more : List Char) :
    Text.trim (line ++ "package".toList ++ more) =
      line.dropWhile Text.isBlank ++ "package".toList ++ more.rdropWhile Text.isBlank := by
  have hlast : 'e' ∈ (line ++ "package".toList).getLast? := by simp
  have hfront : "package".toList.dropWhile Text.isBlank = "package".toList := by decide
  rw [Text.trim_append hlast (by decide), List.dropWhile_append, hfront]
  split
  next hnone => rw [List.isEmpty_iff.1 hnone, List.nil_append]
  next => rfl

/-- What the line of the clause says depends on the word and on what is around it, without the
blanks outside. -/
theorem verdict?_clause (line more : List Char) : verdict? (line ++ "package".toList ++ more) =
    let trimmed := line.dropWhile Text.isBlank ++ "package".toList ++ more.rdropWhile Text.isBlank
    if "package ".toList <+: trimmed then some false
    else if saysIgnore trimmed then some true
    else none := by
  simp only [verdict?, opensClause_iff, trim_clause]

/-- A build constraint does not begin with the word `package`. -/
theorem not_opens_of_ignore {trimmed : List Char} (h : saysIgnore trimmed = true) :
    ¬"package ".toList <+: trimmed := by
  obtain ⟨start, hstart, terms, rfl, -⟩ := saysIgnore_iff.1 h
  rintro ⟨more, hmore⟩
  rcases List.mem_pair.1 hstart with rfl | rfl <;> simp at hmore

/-- A constraint that ends in the word `package` asks for no less with anything behind it. -/
theorem saysIgnore_append {front : List Char} (hfront : "package".toList <:+ front)
    (h : saysIgnore front = true) (behind : List Char) : saysIgnore (front ++ behind) = true := by
  obtain ⟨start, hstart, terms, rfl, hmem⟩ := saysIgnore_iff.1 h
  -- the last word ends in `package`, so it is not `ignore`
  have hends : ¬"ignore".toList <:+ terms := by
    intro hends
    have hin := List.suffix_of_suffix_length_le (hends.trans (List.suffix_append start terms)) hfront
      (by simp)
    revert hin
    decide
  exact saysIgnore_iff.2 ⟨start, hstart, terms ++ behind, List.append_assoc _ _ _,
    Text.mem_words_append hmem hends behind⟩

/-- Behind the word `package`, a tab and a name ask for nothing. -/
theorem saysIgnore_of_tab {front : List Char} (hfront : "package".toList <:+ front)
    (h : saysIgnore (front ++ "\tp".toList) = true) : saysIgnore front = true := by
  obtain ⟨start, hstart, terms, hterms, hmem⟩ := saysIgnore_iff.1 h
  have hk : 'k' ∉ start := by
    rcases List.mem_pair.1 hstart with rfl | rfl <;> decide
  obtain hshorter | ⟨terms', rfl⟩ := List.prefix_or_prefix_of_prefix
    (List.prefix_append front "\tp".toList) (hterms ▸ List.prefix_append start terms)
  · exact absurd (hshorter.subset (hfront.subset (by simp))) hk
  rw [List.append_assoc] at hterms
  obtain rfl := List.append_cancel_left hterms
  have hwords : Text.words (terms' ++ "\tp".toList) = Text.words terms' ++ ["p".toList] := by
    have htab : Text.isBlank '\t' = true := by decide
    have hp : Text.words "p".toList = ["p".toList] := by decide
    rw [show "\tp".toList = '\t' :: "p".toList from by simp, Text.words_append_cons htab, hp]
  rw [hwords] at hmem
  rcases List.mem_append.1 hmem with hmem | hmem
  · exact saysIgnore_iff.2 ⟨start, hstart, terms', rfl, hmem⟩
  · exact absurd hmem (by decide)

/-- **What a line says up to the word `package` it says with anything behind it.** -/
theorem verdict?_append {b : Bool} (h : verdict? (line ++ "package".toList) = some b)
    (more : List Char) : verdict? (line ++ "package".toList ++ more) = some b := by
  have hshort := verdict?_clause line []
  rw [List.append_nil, h, List.rdropWhile_nil, List.append_nil] at hshort
  rw [verdict?_clause]
  dsimp only at hshort ⊢
  split at hshort
  next hopens => rw [if_pos (hopens.trans (List.prefix_append _ _)), hshort]
  next =>
  split at hshort
  next hignore =>
    have hlong := saysIgnore_append (List.suffix_append _ _) hignore (more.rdropWhile Text.isBlank)
    rw [if_neg (not_opens_of_ignore hlong), if_pos hlong, hshort]
  next => cases hshort

/-- A line that says nothing up to the word `package` says nothing if a tab and a name follow. -/
theorem verdict?_tab (h : verdict? (line ++ "package".toList) = none) :
    verdict? (line ++ "package".toList ++ "\tp".toList) = none := by
  have hshort := verdict?_clause line []
  have hbehind : "\tp".toList.rdropWhile Text.isBlank = "\tp".toList := by decide
  rw [List.append_nil, h, List.rdropWhile_nil, List.append_nil] at hshort
  rw [verdict?_clause, hbehind]
  dsimp only at hshort ⊢
  split at hshort
  · cases hshort
  next hopens =>
  split at hshort
  · cases hshort
  next hignore =>
  have hclosed : ¬"package ".toList <+:
      line.dropWhile Text.isBlank ++ "package".toList ++ "\tp".toList := by
    generalize line.dropWhile Text.isBlank = blanks at hopens ⊢
    intro hlong
    cases blanks with
    | nil =>
      revert hlong
      decide
    | cons c blanks =>
      exact hopens (List.prefix_of_prefix_length_le hlong (List.prefix_append _ _) (by simp))
  rw [if_neg hclosed, if_neg (mt (saysIgnore_of_tab (List.suffix_append _ _)) hignore)]

end

/-! ### Where the package clause stands

All tokens before the clause are semicolons, since comments are no tokens. The pieces are more than the
tokens, and it is the pieces that the lines of the text can be told from. -/

namespace Source

/-- A keyword is written as such. -/
theorem Piece.eq_key_of_stands {k : Keyword} {t rest : List Char}
    (h : (Piece.lexeme (.keyword k) t).Stands rest) : Piece.lexeme (.keyword k) t = .key k := by
  obtain ⟨c, cs, -, hnext⟩ := h.next
  rcases Piece.sort_of_next hnext with ⟨-, -, hword⟩ | hliteral | hop
  · rw [Kind.ofWord] at hword
    split at hword
    next k' hk =>
      obtain rfl := Kind.keyword.inj hword
      rw [Piece.key, Keyword.text_of_ofText? hk, String.toList_ofList]
    next => cases hword
  · simp at hliteral
  · cases isSymbol_of_mem hop

theorem Piece.eq_semicolon_of_stands {t rest : List Char}
    (h : (Piece.lexeme .semicolon t).Stands rest) : Piece.lexeme .semicolon t = .semicolon := by
  obtain ⟨c, cs, -, hnext⟩ := h.next
  rcases Piece.sort_of_next hnext with ⟨-, -, hword⟩ | hliteral | hop
  · have hsymbol := Kind.isSymbol_ofWord (String.ofList t)
    rw [← hword] at hsymbol
    cases hsymbol
  · simp at hliteral
  · have hall : ∀ op ∈ operators, op.2 = .semicolon → op.1 = [';'] := by decide
    rw [show t = [';'] from hall _ hop rfl]

/-- The end of a block comment is found where the comment has it. -/
theorem commentEnd_of_not_infix {comment : List Char} (h : ¬['*', '/'] <:+: comment) (rest : List Char) :
    commentEnd (comment ++ '*' :: '/' :: rest) = ⟨true, comment ++ ['*', '/'], rest⟩ := by
  induction comment with
  | nil => rfl
  | cons c comment ih =>
    obtain ⟨hstarts, hcomment⟩ := not_or.1 (mt List.infix_cons_iff.2 h)
    rw [List.cons_append, commentEnd, ih hcomment]
    · rfl
    · rintro more rfl hmore
      cases comment with
      | nil => cases hmore
      | cons d comment =>
        obtain rfl : d = '/' := (List.cons.inj hmore).1
        exact hstarts ⟨comment, rfl⟩

theorem isBlank_slash : Text.isBlank '/' = false := by decide

/-- What stands between tokens stands there by its own shape. -/
theorem Piece.Shaped.stands {p : Piece} {rest : List Char} (h : p.Shaped rest) (hp : p.isGap = true) :
    p.Stands rest := by
  cases h with
  | newline => exact Piece.stands_of_next (c := '\n') rfl
  | @blank c hc hline =>
    have hnext : Piece.next c rest = some (.blank c, rest) := by
      rw [Piece.next, if_neg hline, if_pos hc]
    exact Piece.stands_of_next hnext
  | @lineComment comment hcomment hends =>
    have hall : ∀ c ∈ '/' :: comment, decide (c ≠ '\n') = true := by
      intro c hc
      rcases List.mem_cons.1 hc with rfl | hc
      · decide
      · exact decide_eq_true fun heq => hcomment (heq ▸ hc)
    obtain ⟨htake, hdrop⟩ : ('/' :: comment ++ rest).takeWhile (· ≠ '\n') = '/' :: comment ∧
        ('/' :: comment ++ rest).dropWhile (· ≠ '\n') = rest := by
      have hspan := span_append (P := (· ≠ '\n')) (t := '/' :: comment) (s := rest)
        fun _ c hc => by simpa using hends c hc
      rwa [List.takeWhile_eq_self_iff.2 hall, List.dropWhile_eq_nil_iff.2 hall, List.nil_append] at hspan
    have hnext : Piece.next '/' ('/' :: comment ++ rest) =
        some (.lineComment ('/' :: '/' :: comment), rest) := by
      rw [Piece.next, if_neg (by decide), if_neg (by simp [isBlank_slash]), if_pos (by simp), htake, hdrop]
    exact Piece.stands_of_next hnext
  | @blockComment comment hcomment =>
    have hnext : Piece.next '/' ('*' :: (comment ++ '*' :: '/' :: rest)) =
        some (.blockComment ('/' :: '*' :: comment ++ ['*', '/']), rest) := by
      rw [Piece.next, if_neg (by decide), if_neg (by simp [isBlank_slash]), if_neg (by simp),
        if_pos (by simp), List.tail_cons, commentEnd_of_not_infix hcomment]
      simp [Ending.piece]
    exact Piece.stands_of_next hnext
  | lexeme | broken => cases hp

/-- **What may stand before the package clause**: blanks, comments and semicolons. -/
def Piece.leads (p : Piece) : Bool :=
  p.isGap || p = .semicolon

/-- Of the text behind them, what stands before the package clause depends on the first character. -/
theorem Piece.Stands.of_leads {p : Piece} {rest rest' : List Char} (h : p.Stands rest)
    (hp : p.leads = true) (hhead : rest'.head? = rest.head?) : p.Stands rest' := by
  rcases Bool.or_eq_true_iff.1 hp with hgap | hsemicolon
  · obtain ⟨c, cs, -, hnext⟩ := h.next
    suffices hshaped : p.Shaped rest' from hshaped.stands hgap
    cases Piece.shaped_of_next hnext with
    | newline => exact .newline
    | blank hc hline => exact .blank hc hline
    | lineComment hcomment hends => exact .lineComment hcomment (hhead ▸ hends)
    | blockComment hcomment => exact .blockComment hcomment
    | lexeme hline => exact .lexeme hline
    | broken => exact .broken
  · obtain rfl := of_decide_eq_true hsemicolon
    exact (free_semicolon.2 rest').1

/-- What may lead a file stands before any text that begins alike. -/
theorem Stand.of_leads {front : List Piece} {rest rest' : List Char} (h : Stand front rest)
    (hfront : ∀ p ∈ front, p.leads = true) (hhead : rest'.head? = rest.head?) : Stand front rest' := by
  induction front with
  | nil => trivial
  | cons p front ih =>
    refine ⟨h.1.of_leads (hfront p List.mem_cons_self) ?_,
      ih h.2 fun q hq => hfront q (List.mem_cons_of_mem _ hq)⟩
    rw [List.head?_append, List.head?_append, hhead]

end Source

/-! ### Texts with a package clause -/

namespace Source

section

variable {front : List Piece}

/-- What may lead a file has no words but semicolons. -/
theorem kind_of_leads (hfront : ∀ p ∈ front, p.leads = true) {ends : Bool} {w : Word}
    (hw : w ∈ wordsOf ends front) : w.kind = .semicolon := by
  rcases mem_wordsOf hw with rfl | ⟨kind, t, hmem, rfl⟩
  · rfl
  · have hlead := hfront _ hmem
    simp only [Piece.leads, Piece.isGap, Bool.false_or, decide_eq_true_eq] at hlead
    injection hlead

theorem isWhole_of_leads {p : Piece} (h : p.leads = true) : p.isWhole = true := by
  cases p with
  | broken cause t => cases h
  | _ => rfl

theorem map_word_closing (ends : Bool) (p : Position) :
    (if ends then [Token.lineEnd p] else []).map Token.word = closing ends := by
  cases ends <;> rfl

/-- What leads a file is what stands before its first keyword for packages. -/
theorem takeWhile_of_leads (hfront : ∀ p ∈ front, p.leads = true) (more : List Piece) :
    (front ++ .key .packageKw :: more).takeWhile (· ≠ .key .packageKw) = front := by
  have hall : ∀ p ∈ front, decide (p ≠ .key .packageKw) = true := by
    intro p hp
    refine decide_eq_true fun heq => ?_
    have hlead := hfront p hp
    rw [heq] at hlead
    cases hlead
  rw [List.takeWhile_append_of_pos hall, List.takeWhile_cons_of_neg (by simp), List.append_nil]

/-- A semicolon at the end of a line is passed with the others. -/
theorem dropWhile_closing (ends : Bool) (ws : List Word) :
    (closing ends ++ ws).dropWhile (·.kind = .semicolon) = ws.dropWhile (·.kind = .semicolon) := by
  cases ends <;> rfl

/-- If the first word but for semicolons is `package`, nothing else stands before it. -/
theorem exists_leads {ps : List Piece} {ends : Bool} {w : Word} {ws : List Word} (hstand : Stand ps [])
    (hwhole : ∀ q ∈ ps, q.isWhole = true)
    (h : (wordsOf ends ps ++ closing (endsAfter ends ps)).dropWhile (·.kind = .semicolon) = w :: ws)
    (hw : w.kind = .keyword .packageKw) :
    ∃ front more, ps = front ++ .key .packageKw :: more ∧ ∀ p ∈ front, p.leads = true := by
  induction ps generalizing ends with
  | nil =>
    have hnone := dropWhile_closing (endsAfter ends []) []
    rw [List.append_nil] at hnone
    rw [wordsOf, List.nil_append, hnone] at h
    cases h
  | cons p ps ih =>
    have hbehind {ends' : Bool} (hp : p.leads = true)
        (h : (wordsOf ends' ps ++ closing (endsAfter ends' ps)).dropWhile (·.kind = .semicolon) = w :: ws) :
        ∃ front more, p :: ps = front ++ .key .packageKw :: more ∧ ∀ p ∈ front, p.leads = true := by
      obtain ⟨front, more, rfl, hfront⟩ :=
        ih hstand.2 (fun q hq => hwhole q (List.mem_cons_of_mem _ hq)) h
      exact ⟨p :: front, more, rfl, List.forall_mem_cons.2 ⟨hp, hfront⟩⟩
    cases p with
    | newline =>
      rw [wordsOf, endsAfter, List.append_assoc, dropWhile_closing] at h
      exact hbehind rfl h
    | blockComment t =>
      rw [wordsOf, endsAfter, List.append_assoc, dropWhile_closing] at h
      exact hbehind rfl h
    | blank c | lineComment t => exact hbehind rfl h
    | lexeme kind t =>
      rw [wordsOf, endsAfter, List.cons_append] at h
      by_cases hkind : kind = .semicolon
      · rw [List.dropWhile_cons_of_pos (by simp [hkind])] at h
        subst hkind
        exact hbehind (by rw [Piece.eq_semicolon_of_stands hstand.1]; rfl) h
      · rw [List.dropWhile_cons_of_neg (by simp [hkind])] at h
        obtain ⟨rfl, -⟩ := List.cons.inj h
        obtain rfl : kind = .keyword .packageKw := hw
        exact ⟨[], ps, by rw [Piece.eq_key_of_stands hstand.1]; rfl, by simp⟩
    | broken cause t => cases hwhole _ List.mem_cons_self

end

/-- The words of a text that has tokens. -/
theorem exists_pieces_of_tokenize {text : String} {ts : Tokens} (h : tokenize text = .ok ts) :
    ∃ ps, split text.toList = (ps, []) ∧ (∀ q ∈ ps, q.isWhole = true) ∧
      ts.list.map Token.word = wordsOfText ps := by
  obtain ⟨ps, hsplit, hwhole, rfl⟩ := tokenize_eq_ok_iff.1 h
  refine ⟨ps, hsplit, hwhole, ?_⟩
  rw [List.map_append, word_tokensOf, map_word_closing]
  rfl

end Source

/-- What is wanted is read if it is the kind of the first token. -/
theorem expect_eq_ok {kind : Kind} {what : Wanted} {tokens : List Token} {parsed : Parsed Token} :
    expect kind what tokens = .ok parsed ↔
      ∃ t rest, tokens = t :: rest ∧ t.kind = kind ∧ parsed = ⟨t, [], rest⟩ := by
  constructor
  · intro h
    cases tokens with
    | nil => cases h
    | cons t rest =>
      rw [expect] at h
      split at h
      next ht => exact ⟨t, rest, rfl, ht, (Except.ok.inj h).symm⟩
      next => cases h
  · rintro ⟨t, rest, rfl, ht, rfl⟩
    exact if_pos ht

/-- Passing semicolons passes their words. -/
theorem map_word_dropWhile (tokens : List Token) :
    (tokens.dropWhile (·.kind = .semicolon)).map Token.word =
      (tokens.map Token.word).dropWhile (·.kind = .semicolon) := by
  rw [List.dropWhile_map]
  rfl

/-- What is read of a package clause: the word `package`, and a name behind it. -/
theorem words_of_parsePackageName {file text n : String} (h : parsePackageName file text = .ok n) :
    ∃ ts, tokenize text = .ok ts ∧ ∃ u w ws,
      (ts.list.map Token.word).dropWhile (·.kind = .semicolon) = u :: w :: ws ∧
        u.kind = .keyword .packageKw ∧ w.kind = .identifier ∧ w.text = n ∧ n ≠ "_" := by
  obtain ⟨parsed, hread, rfl⟩ : ∃ parsed, readText packageClause file text = .ok parsed ∧ parsed.value = n := by
    cases hread : readText packageClause file text with
    | error e =>
      rw [parsePackageName, hread] at h
      cases h
    | ok parsed =>
      rw [parsePackageName, hread] at h
      exact ⟨parsed, rfl, Except.ok.inj h⟩
  obtain ⟨ts, hts, hclause⟩ := readText_eq_ok.1 hread
  obtain ⟨_, _, hskip, hskipped, rfl⟩ := bind_eq_ok.1 hclause
  cases hskip
  obtain ⟨_, _, hkeyword, hopened, rfl⟩ := bind_eq_ok.1 hskipped
  obtain ⟨u, us, htokens, hu, rfl⟩ := expect_eq_ok.1 hkeyword
  obtain ⟨_, _, hname, hnamed, rfl⟩ := bind_eq_ok.1 hopened
  obtain ⟨t, rest, rfl, ht, rfl⟩ := expect_eq_ok.1 hname
  refine ⟨ts, hts, u.word, t.word, rest.map Token.word, ?_, hu, ht, ?_⟩
  · rw [← map_word_dropWhile]
    exact congrArg (List.map Token.word) htokens
  · dsimp only at hnamed ⊢
    split at hnamed
    · cases hnamed
    next hblank =>
      obtain ⟨_, -, rfl⟩ := bind_pure_eq_ok.1 hnamed
      exact ⟨rfl, hblank⟩

/-- The text before the word `package` of the package clause. -/
def beforeClause (text : String) : List Char :=
  textOf ((Source.split text.toList).1.takeWhile (· ≠ .key .packageKw))

/-- **A text with a package clause** has nothing but blanks, comments and semicolons before it. -/
theorem exists_clause {file text name : String} (h : parsePackageName file text = .ok name) :
    ∃ front, beforeClause text = textOf front ∧ (∀ p ∈ front, p.leads = true) ∧
      Stand front "package".toList ∧ textOf front ++ "package".toList <+: text.toList := by
  obtain ⟨ts, hts, u, w, ws, hwords, hu, -⟩ := words_of_parsePackageName h
  obtain ⟨ps, hsplit, hwhole, hall⟩ := exists_pieces_of_tokenize hts
  have hstand : Stand ps [] := by simpa [hsplit] using stand_split text.toList
  have htext : textOf ps = text.toList := by simpa [hsplit] using split_text text.toList
  rw [hall] at hwords
  obtain ⟨front, more, rfl, hfront⟩ := exists_leads hstand hwhole hwords hu
  refine ⟨front, ?_, hfront, ?_, textOf more, ?_⟩
  · rw [beforeClause, hsplit, takeWhile_of_leads hfront]
  · exact (stand_append.1 hstand).1.of_leads hfront (by simp [Keyword.text])
  · rw [← htext]
    simp [Keyword.text]

/-- **What stands before a package clause can stand before any other one.** -/
theorem parsePackageName_of_leads {front more : List Piece} {name : String} (file : String)
    (hfront : ∀ p ∈ front, p.leads = true) (hstand : Stand front "package".toList)
    (hmore : Stand (.key .packageKw :: more) []) (hwhole : ∀ q ∈ more, q.isWhole = true)
    (hname : name ≠ "_") (hwords : wordsOfText (.key .packageKw :: more) =
      [⟨.keyword .packageKw, "package"⟩, ⟨.identifier, name⟩, .lineEnd]) :
    let text := String.ofList (textOf (front ++ .key .packageKw :: more))
    parsePackageName file text = .ok name ∧ beforeClause text = textOf front := by
  have hall : Stand (front ++ .key .packageKw :: more) [] :=
    stand_append.2 ⟨hstand.of_leads hfront (by simp [Keyword.text]), hmore⟩
  have hwholes : ∀ q ∈ front ++ .key .packageKw :: more, q.isWhole = true := by
    intro q hq
    rcases List.mem_append.1 hq with hq | hq
    · exact isWhole_of_leads (hfront q hq)
    · rcases List.mem_cons.1 hq with rfl | hq
      · rfl
      · exact hwhole q hq
  constructor
  · obtain ⟨ts, hts, htokens⟩ := tokenize_of_stand hall hwholes
    have hsplit : ts.list.map Token.word = wordsOf false front ++
        wordsOfText (.key .packageKw :: more) := by
      rw [htokens, wordsOfText, wordsOf_append, endsAfter_append, List.append_assoc]
      rfl
    obtain ⟨semicolons, clause, hlist, hsemicolons, hclause⟩ := List.map_eq_append_iff.1 hsplit
    have hskip : packageClause (semicolons ++ clause) = packageClause clause := by
      have hall : ∀ t ∈ semicolons, decide (t.kind = .semicolon) = true := fun t ht =>
        decide_eq_true (kind_of_leads hfront (hsemicolons ▸ List.mem_map_of_mem ht))
      refine bind_congr_first ?_
      rw [skipSemicolons, skipSemicolons, List.dropWhile_append_of_pos hall]
    have hreports : packageClause.Reports _ _ fun _ => True := reports_packageClause hname
    obtain ⟨_, references, hread, rfl, -⟩ := hreports clause [] (hclause.trans hwords) trivial
    rw [List.append_nil, ← hskip, ← hlist] at hread
    rw [parsePackageName, readText_eq_ok.2 ⟨ts, hts, hread⟩]
    rfl
  · rw [beforeClause, String.toList_ofList]
    have hsplit := split_of_stand hall
    rw [List.append_nil, Source.split, List.append_nil] at hsplit
    rw [hsplit, takeWhile_of_leads hfront]

/-! ### What is told before the package clause -/

/-- A line before the package clause says something, or its own line does up to the word `package`. -/
def IsSettled (before : List Char) : Prop :=
  ∃ line ∈ Text.lines (before ++ "package".toList), (verdict? line).isSome = true

instance (before : List Char) : Decidable (IsSettled before) :=
  inferInstanceAs (Decidable (∃ line ∈ _, _))

section

variable {before : List Char}

/-- It is settled whether a file is ignored if one of the lines up to the word says something. -/
theorem isSettled_iff : IsSettled before ↔
    ∃ b, (Text.lines (before ++ "package".toList)).findSome? verdict? = some b := by
  rw [← Option.isSome_iff_exists, List.findSome?_isSome_iff]
  rfl

/-- The lines around the word: those above it, its own, and those below. -/
theorem lines_clause (before : List Char) {more first : List Char} {others : List (List Char)}
    (hmore : Text.lines more = first :: others) :
    Text.lines (before ++ "package".toList ++ more) = (Text.lines before).dropLast ++
      (before.rtakeWhile (· != '\n') ++ "package".toList ++ first) :: others := by
  have hpackage : Text.lines ("package".toList ++ more) = ("package".toList ++ first) :: others := by
    have hnone : (Text.cutAt (· == '\n') "package".toList).dropLast = [] := by decide
    have hall : "package".toList.rtakeWhile (!· == '\n') = "package".toList := by decide
    rw [Text.lines, Text.cutAt_append _ hmore, hnone, hall, List.nil_append]
  rw [List.append_assoc, Text.lines, Text.cutAt_append before hpackage, List.append_assoc]
  rfl

/-- **What is told before the package clause is the answer**, whatever follows. -/
theorem ignoredAmong_of_settled {b : Bool}
    (h : (Text.lines (before ++ "package".toList)).findSome? verdict? = some b) (more : List Char) :
    ignoredAmong (Text.lines (before ++ "package".toList ++ more)) = b := by
  obtain ⟨first, others, hmore⟩ := List.exists_cons_of_ne_nil (Text.cutAt_ne_nil (· == '\n') more)
  have hshort := lines_clause before (rfl : Text.lines [] = [[]])
  rw [List.append_nil, List.append_nil] at hshort
  rw [hshort, List.findSome?_append] at h
  rw [lines_clause before hmore, ignoredAmong_append]
  cases habove : (Text.lines before).dropLast.findSome? verdict? with
  | some b' =>
    rw [habove] at h
    exact Option.some.inj h
  | none =>
    rw [habove, Option.none_or, List.findSome?_singleton] at h
    rw [Option.none_or, List.findSome?_cons, verdict?_append h]
    rfl

/-- If nothing is told before the package clause, what follows it is heard behind a tab. -/
theorem ignoredAmong_of_not_settled (h : ¬IsSettled before) (below : List Char) :
    ignoredAmong (Text.lines (before ++ "package".toList ++ "\tp".toList ++ '\n' :: below)) =
      ignoredAmong (Text.lines below) := by
  have hquiet (line : List Char) (hline : line ∈ Text.lines (before ++ "package".toList)) :
      verdict? line = none := by
    rw [← Option.not_isSome_iff_eq_none]
    exact fun hsome => h ⟨line, hline, hsome⟩
  have hshort := lines_clause before (rfl : Text.lines [] = [[]])
  rw [List.append_nil, List.append_nil] at hshort
  have htab : Text.lines "\tp".toList = ["\tp".toList] := by decide
  have hlong := lines_clause before htab
  have hnone : (Text.lines (before ++ "package".toList ++ "\tp".toList)).findSome? verdict? = none := by
    rw [hlong, List.findSome?_eq_none_iff]
    intro line hline
    rcases List.mem_append.1 hline with hline | hline
    · exact hquiet line (hshort ▸ List.mem_append_left _ hline)
    · obtain rfl := List.mem_singleton.1 hline
      exact verdict?_tab (hquiet _ (hshort ▸ List.mem_append_right _ List.mem_cons_self))
  have hbelow : Text.lines (before ++ "package".toList ++ "\tp".toList ++ '\n' :: below) =
      Text.lines (before ++ "package".toList ++ "\tp".toList) ++ Text.lines below :=
    Text.cutAt_append_cons (by simp) _ _
  rw [hbelow, ignoredAmong_append, hnone, Option.none_or, ignoredAmong_eq]

/-- **A package clause of the plain layout**: only blanks stand before it on its line, and a space stands
behind the word `package`, with more on the line. -/
def HasPlainClause (text : String) : Prop :=
  (∀ c ∈ (beforeClause text).rtakeWhile (· != '\n'), Text.isBlank c = true) ∧
    ∃ gap c more, (∀ d ∈ gap, d ≠ '\n') ∧ c ≠ '\n' ∧ Text.isBlank c = false ∧
      text.toList = beforeClause text ++ "package".toList ++ ' ' :: gap ++ c :: more

/-- Behind a plain package clause nothing is heard. -/
theorem isIgnored_of_plain {text : String} (h : HasPlainClause text) :
    isIgnored text = ignoredAmong (Text.lines (beforeClause text)) := by
  obtain ⟨hblank, gap, c, more, hgap, hline, hc, htext⟩ := h
  obtain ⟨first, others, hmore⟩ : ∃ first others, Text.lines (' ' :: gap ++ c :: more) =
      (' ' :: gap ++ c :: first) :: others := by
    obtain ⟨first, others, hmore⟩ := List.exists_cons_of_ne_nil (Text.cutAt_ne_nil (· == '\n') more)
    have hrest : Text.cutAt (· == '\n') (c :: more) = (c :: first) :: others := by
      rw [Text.cutAt, if_neg (by simpa using hline), hmore]
    have hall : ∀ d ∈ ' ' :: gap, (d == '\n') = false :=
      List.forall_mem_cons.2 ⟨by decide, fun d hd => by simpa using hgap d hd⟩
    refine ⟨first, others, ?_⟩
    rw [Text.lines, Text.cutAt_append _ hrest, Text.cutAt_of_uncut hall,
      List.rtakeWhile_eq_self_iff.2 fun d hd => by simp [hall d hd]]
    rfl
  have hopens : opensClause ((beforeClause text).rtakeWhile (· != '\n') ++ "package".toList ++
      (' ' :: gap ++ c :: first)) = true := by
    have hkept : (' ' :: gap ++ c :: first).rdropWhile Text.isBlank =
        ' ' :: gap ++ [c] ++ first.rdropWhile Text.isBlank := by
      have hends : c ∈ (' ' :: gap ++ [c]).getLast? := List.getLast?_concat
      rw [← Text.rdropWhile_append hends (by simp [hc]), List.append_assoc, List.singleton_append]
    rw [opensClause_iff, trim_clause, List.dropWhile_eq_nil_iff.2 hblank, hkept]
    exact ⟨gap ++ [c] ++ first.rdropWhile Text.isBlank, by simp⟩
  have hquiet : verdict? ((beforeClause text).rtakeWhile (· != '\n')) = none := by
    have hnone : Text.trim ((beforeClause text).rtakeWhile (· != '\n')) = [] := by
      rw [Text.trim, strip_eq, List.dropWhile_eq_nil_iff.2 hblank, List.rdropWhile_nil]
    rw [verdict?, opensClause, hnone]
    decide
  have hlines : Text.lines (beforeClause text) = (Text.lines (beforeClause text)).dropLast ++
      [(beforeClause text).rtakeWhile (· != '\n')] := Text.cutAt_eq _ _
  rw [isIgnored, htext, List.append_assoc, lines_clause _ hmore, ignoredAmong_of_opens hopens, hlines,
    List.dropLast_concat, ignoredAmong_append, List.findSome?_singleton, hquiet, Option.or_none,
    ignoredAmong_eq]

/-- An ignored file is as good as none. -/
theorem ofSourcesIn_of_isIgnored {file text : String} (h : isIgnored text = true) (place path : String)
    (above below : List SourceText) :
    Package.ofSourcesIn place path (above ++ ⟨file, text⟩ :: below) =
      Package.ofSourcesIn place path (above ++ below) := by
  simp [Package.ofSourcesIn, List.filter_append, h]

/-- Whether a text is ignored can be told from any text that has the same before its package clause if
something is told there, and only then. -/
theorem told_before_iff {file text name : String} (h : parsePackageName file text = .ok name) :
    (∀ file' text' name', parsePackageName file' text' = .ok name' →
      beforeClause text' = beforeClause text → isIgnored text' = isIgnored text) ↔
      IsSettled (beforeClause text) := by
  obtain ⟨front, hbefore, hfront, hstand, more, htext⟩ := exists_clause h
  constructor
  · intro hsame
    by_contra hsettled
    have htabbed (extra : List Piece)
        (hextra : Stand (.key .packageKw :: [.blank '\t', .name "p", .newline] ++ extra) [] ∧
          (∀ q ∈ extra, q.isWhole = true) ∧
          wordsOfText (.key .packageKw :: [.blank '\t', .name "p", .newline] ++ extra) =
            [⟨.keyword .packageKw, "package"⟩, ⟨.identifier, "p"⟩, .lineEnd]) :
        ignoredAmong (Text.lines (textOf extra)) = isIgnored text := by
      obtain ⟨hmore, hwhole, hwords⟩ := hextra
      obtain ⟨hclause, hagain⟩ := parsePackageName_of_leads file hfront hstand hmore
        (by simpa [Piece.isWhole] using hwhole) (by decide) hwords
      rw [← hsame _ _ _ hclause (hagain.trans hbefore.symm), isIgnored, String.toList_ofList,
        ← ignoredAmong_of_not_settled hsettled, hbefore]
      simp [Keyword.text]
    have hnone := htabbed [] ⟨⟨by decide, by decide, by decide,
      by decide, trivial⟩, by simp, by decide⟩
    have hignored := htabbed [.lineComment "//go:build ignore".toList, .newline] ⟨⟨by decide,
      by decide, by decide, by decide, by decide, by decide,
      trivial⟩, by simp [Piece.isWhole], by decide⟩
    rw [← hnone] at hignored
    revert hignored
    decide
  · intro hsettled file' text' name' h' hsame
    obtain ⟨front', hbefore', -, -, more', htext'⟩ := exists_clause h'
    obtain ⟨b, hb⟩ := isSettled_iff.1 hsettled
    rw [isIgnored, isIgnored, ← htext, ← htext', ← hbefore', ← hbefore, hsame,
      ignoredAmong_of_settled hb, ignoredAmong_of_settled hb]

end

/-! ### Ignored files -/

/-- **What decides whether a file is ignored**, for a file whose package clause can be read. The search ends
at the first line that begins with `package` and a space, be it the line of a comment. It does so at a
package clause of the plain layout, and then only the text before the clause counts. In general the text
before the clause is enough if one of its lines says something, or the line of the clause itself up to the
word `package`; otherwise another text begins alike and has the other answer. A file that is ignored is left
out of its package. -/
theorem ignored_before_clause {file text name : String} (h : parsePackageName file text = .ok name) :
    (∃ behind, text.toList = beforeClause text ++ "package".toList ++ behind) ∧
      (∀ above line below, Text.lines text.toList = above ++ line :: below → opensClause line = true →
        isIgnored text = ignoredAmong above) ∧
      (HasPlainClause text → isIgnored text = ignoredAmong (Text.lines (beforeClause text))) ∧
      ((∀ file' text' name', parsePackageName file' text' = .ok name' →
        beforeClause text' = beforeClause text → isIgnored text' = isIgnored text) ↔
          IsSettled (beforeClause text)) ∧
      (isIgnored text = true → ∀ place path above below,
        Package.ofSourcesIn place path (above ++ ⟨file, text⟩ :: below) =
          Package.ofSourcesIn place path (above ++ below)) := by
  refine ⟨?_, fun above line below hlines hopens => ?_, isIgnored_of_plain, told_before_iff h,
    ofSourcesIn_of_isIgnored⟩
  · obtain ⟨front, hbefore, -, -, behind, htext⟩ := exists_clause h
    exact ⟨behind, by rw [hbefore, htext]⟩
  · rw [isIgnored, hlines, ignoredAmong_of_opens hopens]

/-- A constraint below a comment, above a plain package clause. -/
def constrainedText : String :=
  "// A lot.\n//go:build ignore\npackage lot\n"

/-- A constraint above a plain clause: the file is ignored, and the package loads as without it. -/
theorem ignored_before_clause_constrained :
    parsePackageName "lot.go" constrainedText = .ok "lot" ∧
      isIgnored constrainedText = ignoredAmong (Text.lines (beforeClause constrainedText)) ∧
      ∀ place path above below,
        Package.ofSourcesIn place path (above ++ ⟨"lot.go", constrainedText⟩ :: below) =
          Package.ofSourcesIn place path (above ++ below) := by
  have h : parsePackageName "lot.go" constrainedText = .ok "lot" := by decide +kernel
  have hline : (beforeClause constrainedText).rtakeWhile (· != '\n') = [] := by decide +kernel
  have hplain : HasPlainClause constrainedText :=
    ⟨by simp [hline], [], 'l', "ot\n".toList, by simp, by decide, by decide,
      by decide +kernel⟩
  obtain ⟨-, -, htold, -, habsent⟩ := ignored_before_clause h
  exact ⟨h, htold hplain, habsent (by decide)⟩

/-- **The text before the package clause is not enough.** Behind `package` and a tab, a line of the body is
taken for a build constraint; and a line of a comment that begins with `package` hides the one below it. -/
theorem not_ignored_before_clause :
    (¬∀ file text name file' text' name', parsePackageName file text = .ok name →
      parsePackageName file' text' = .ok name' → beforeClause text = beforeClause text' →
        isIgnored text = isIgnored text') ∧
    ∃ text, parsePackageName "p.go" text = .ok "p" ∧
      (∃ line ∈ Text.lines (beforeClause text), saysIgnore (Text.trim line) = true) ∧
        isIgnored text = false := by
  constructor
  · intro hsame
    have hequal := hsame "p.go" "package\tp\n" "p" "p.go" "package\tp\n\n//go:build ignore\n" "p"
      (by decide +kernel) (by decide +kernel) (by decide +kernel)
    revert hequal
    decide
  · exact ⟨"/*\npackage d\n*/\n//go:build ignore\npackage p\n", by decide +kernel,
      by decide +kernel, by decide +kernel⟩

end Multicast
