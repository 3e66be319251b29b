import Multicast.Proofs.Constraints
import Multicast.Proofs.Directories
import Multicast.Proofs.Regenerated

/-!
# Names guessed from import paths

The short name of a package is guessed from its import path: a major version and the language are
dropped, and what cannot stand in a name becomes an underscore. The guess is the name of the package that
a hook goes to, and stands in front of the types of imported packages. It is not checked to be a name.

Its characters are those of names, so it is read as a word if it begins like one, and as a number otherwise
(`next_nameChars`). It is a package name just if what is left of the path begins with no numeral, is no
keyword, and is a letter if it is a single character (`PackageId.isPackageName_guessName_iff`); nothing else
becomes a keyword, since no keyword has an underscore in it.

A hook with any other guess has a package clause that cannot be read (`HookFile.clause_of_render`). Where
nothing is left of the path, the word behind `package` is that of the imports, and there are imports, since
the interface is in another package. With a package name in it the clause is read, if the text has tokens
at all (`HookFile.parsePackageName_render`), and a sound file has (`HookFile.Sound.exists_tokens`).

## Names, words and clauses

Three questions are asked about a guess. Is it a package name? This is answered by the characters of what
is left of the path (`isPackageName_guessName_iff`). How is it cut into words when it stands in a text?
That needs the cutting of texts whose characters are all those of names: it is one word, or it begins with
a number and there may be a word behind it. And what does a package clause with it say? If it is one name
it says this name. If not, the clause is refused, or in one case it names the word that happens to follow.

The guess is not wrong in what it makes of a path. It is used where a name is needed, and nobody asks
whether it is one.
-/

namespace Multicast

open Source Syntax Multicast.Syntax.Parser

/-! ### Texts of name characters -/

namespace Source

section

variable {c : Char} {cs rest : List Char}

/-- What begins with a numeral is a number, if it is anything. -/
theorem eq_number_of_next {p : Piece} (hc : Text.isNumeral c = true) (hletter : Text.isLetter c = false)
    (h : Piece.next c cs = some (p, rest)) : ∃ t, p = .lexeme .number t := by
  have hname : isNameChar c = true := by simp [isNameChar, hc]
  have hne := isNameChar_ne hname
  simp only [List.mem_cons, List.not_mem_nil, or_false, not_or] at hne
  have hunderscore : c ≠ '_' := by
    rintro rfl
    rw [Text.isNumeral_of_lt (by decide)] at hc
    cases hc
  have hoperator : operator? (c :: cs) = none := by
    have hall : (operators.all fun op => !op.1.isEmpty) = true := by decide
    refine List.find?_eq_none.2 fun op hop hstarts => ?_
    obtain ⟨text, kind⟩ := op
    cases text with
    | nil => cases List.all_eq_true.1 hall _ hop
    | cons d text =>
      obtain rfl := (List.cons_prefix_cons.1 (List.isPrefixOf_iff_prefix.1 hstarts)).1
      cases (isNameChar_of_mem_operators hop List.mem_cons_self).symm.trans hname
  rw [Piece.next, if_neg hne.1, if_neg (by simp [isBlank_of_isNameChar hname]),
    if_neg (by simp [hne.2.1]), if_neg (by simp [hne.2.1]), if_neg (by simp [hletter, hunderscore])] at h
  split at h
  · cases h
    exact ⟨_, rfl⟩
  · rw [if_neg hne.2.2.1, if_neg hne.2.2.2.1, if_neg hne.2.2.2.2, hoperator] at h
    cases h

/-- Name characters are cut off as a word, or as a number if they do not begin like a word. -/
theorem next_nameChars {p : Piece} {r : List Char} (hchars : ∀ d ∈ c :: cs, isNameChar d = true)
    (hrest : ∀ d ∈ rest.head?, isNameChar d = false) (h : Piece.next c (cs ++ rest) = some (p, r)) :
    (∃ t, p = .lexeme .number t) ∨
      (Text.isLetter c || c = '_') = true ∧
        p = .lexeme (.ofWord (String.ofList (c :: cs))) (c :: cs) := by
  obtain ⟨hc, hcs⟩ := List.forall_mem_cons.1 hchars
  by_cases hword : (Text.isLetter c || c = '_') = true
  · rw [next_word hword hcs hrest] at h
    exact .inr ⟨hword, (congrArg Prod.fst (Option.some.inj h)).symm⟩
  · obtain ⟨hletter, hunderscore⟩ : Text.isLetter c = false ∧ c ≠ '_' := by simpa using hword
    have hnumeral : Text.isNumeral c = true := by simpa [isNameChar, hletter, hunderscore] using hc
    exact .inl (eq_number_of_next hnumeral hletter h)

/-- **Name characters at the beginning of a text with tokens** are a name if the first word is one. -/
theorem writes_of_words {n : String} {ps : List Piece} {ends : Bool} {w : Word} {more ws : List Word}
    (hne : n ≠ "") (hchars : ∀ d ∈ n.toList, isNameChar d = true)
    (hrest : ∀ d ∈ rest.head?, isNameChar d = false) (hsplit : split (n.toList ++ rest) = (ps, []))
    (hwords : wordsOf ends ps ++ more = w :: ws) (hw : w.kind = .identifier) :
    Kind.identifier.Writes n ∧ w.text = n := by
  obtain ⟨c, cs, htext⟩ : ∃ c cs, n.toList = c :: cs :=
    List.exists_cons_of_ne_nil fun hnil => hne (String.toList_eq_nil_iff.1 hnil)
  have hn : String.ofList (c :: cs) = n := by rw [← htext, String.ofList_toList]
  rw [htext] at hchars hsplit
  rw [List.cons_append] at hsplit
  cases hnext : Piece.next c (cs ++ rest) with
  | none =>
    rw [split_cons_none hnext] at hsplit
    cases hsplit
  | some cut =>
    obtain ⟨p, r⟩ := cut
    rw [split_cons_some hnext] at hsplit
    obtain ⟨rfl, -⟩ := Prod.mk.inj hsplit
    obtain ⟨t, rfl⟩ | ⟨hword, rfl⟩ := next_nameChars hchars hrest hnext
    · obtain ⟨rfl, -⟩ := List.cons.inj hwords
      cases hw
    · obtain ⟨rfl, -⟩ := List.cons.inj hwords
      exact ⟨hn ▸ writes_of_word hword (List.forall_mem_cons.1 hchars).2 hw, hn⟩

end

end Source

/-! ### Package names

The underscore alone is a name, but not one that a package may have. -/

/-- **A package name**: letters, numerals and underscores, of which the first is no numeral, but no
keyword and not the underscore alone. -/
structure IsPackageName (n : String) : Prop where
  begins : (n.toList.head?.any fun c => Text.isLetter c || c = '_') = true
  chars : ∀ c ∈ n.toList, isNameChar c = true
  notKeyword : Keyword.ofText? n = none
  notBlank : n ≠ "_"

instance (n : String) : Decidable (IsPackageName n) :=
  decidable_of_iff ((n.toList.head?.any fun c => Text.isLetter c || c = '_') = true ∧
    n.toList.all isNameChar = true ∧ Keyword.ofText? n = none ∧ n ≠ "_")
    ⟨fun ⟨hbegins, hchars, hkeyword, hblank⟩ =>
        ⟨hbegins, List.all_eq_true.1 hchars, hkeyword, hblank⟩,
      fun h => ⟨h.begins, List.all_eq_true.2 h.chars, h.notKeyword, h.notBlank⟩⟩

theorem ofWord_eq_identifier {n : String} : Kind.ofWord n = .identifier ↔ Keyword.ofText? n = none := by
  rw [Kind.ofWord]
  split <;> simp [*]

/-- **Package names are the names that a package clause may give.** -/
theorem isPackageName_iff {n : String} : IsPackageName n ↔ Kind.identifier.Writes n ∧ n ≠ "_" := by
  constructor
  · rintro ⟨hbegins, hchars, hkeyword, hblank⟩
    refine ⟨?_, hblank⟩
    cases htext : n.toList with
    | nil =>
      rw [htext] at hbegins
      cases hbegins
    | cons c cs =>
      have hn : String.ofList (c :: cs) = n := by rw [← htext, String.ofList_toList]
      rw [htext] at hbegins hchars
      rw [← hn] at hkeyword ⊢
      exact writes_of_word hbegins (List.forall_mem_cons.1 hchars).2 (ofWord_eq_identifier.2 hkeyword)
  · rintro ⟨hwrites, hblank⟩
    obtain ⟨c, cs, htext, hc, hcs⟩ := head_of_writes hwrites
    refine ⟨by rw [htext]; exact hc, isNameChar_of_writes hwrites, ?_, hblank⟩
    obtain ⟨c', cs', htext', hnext⟩ := Piece.Stands.next hwrites
    rw [List.append_nil, htext] at htext'
    obtain ⟨rfl, rfl⟩ := List.cons.inj htext'
    -- the name is cut off as a word, so it is no keyword
    rw [← List.append_nil cs, next_word hc hcs (by simp)] at hnext
    injection congrArg Prod.fst (Option.some.inj hnext) with hkind
    rw [← htext, String.ofList_toList] at hkind
    exact ofWord_eq_identifier.1 hkind

/-! ### What is guessed from a path -/

namespace PackageId

/-- What of a path the name is made of. -/
def stem (path : String) : List Char :=
  dropLanguage (dropVersion (namingElement path.toList))

/-- What stands for a character in a name. -/
def nameChar (c : Char) : Char :=
  if isNameChar c then c else '_'

theorem toList_guessName (path : String) : (guessName path).toList = (stem path).map nameChar := by
  rw [guessName, String.toList_ofList]
  rfl

theorem isNameChar_nameChar (c : Char) : isNameChar (nameChar c) = true := by
  rw [nameChar]
  split
  next h => exact h
  next => exact isNameChar_of_lt (by decide)

/-- Every character of a guessed name may stand in a name. -/
theorem isNameChar_of_guessName {path : String} :
    ∀ c ∈ (guessName path).toList, isNameChar c = true := by
  rw [toList_guessName]
  exact List.forall_mem_map.2 fun c _ => isNameChar_nameChar c

/-- **What a package name can be made of**: something that begins with no numeral, unless it is a letter
too, that is no keyword, and that is a letter if it is a single character. -/
structure IsUsable (stem : List Char) : Prop where
  begins : (stem.head?.any fun c => Text.isLetter c || !Text.isNumeral c) = true
  notKeyword : Keyword.ofText? (String.ofList stem) = none
  single : ∀ c, stem = [c] → Text.isLetter c = true

/-- A guess begins like a name unless its first character is a numeral and no letter. -/
theorem begins_nameChar (c : Char) : (Text.isLetter (nameChar c) || nameChar c = '_') =
    (Text.isLetter c || !Text.isNumeral c) := by
  have hunderscore : Text.isNumeral '_' = false := Text.isNumeral_of_lt (by decide)
  rw [nameChar]
  cases hletter : Text.isLetter c <;> cases hnumeral : Text.isNumeral c <;>
    by_cases hc : c = '_' <;> simp_all [isNameChar]

theorem nameChar_eq_self {c : Char} (h : nameChar c ≠ '_') : nameChar c = c := by
  rw [nameChar] at h ⊢
  split
  next => rfl
  next hnot => exact absurd (if_neg hnot) h

/-- Nothing but a word itself becomes a word without underscores. -/
theorem map_nameChar_eq_iff {stem word : List Char}
    (hword : ∀ c ∈ word, isNameChar c = true ∧ c ≠ '_') : stem.map nameChar = word ↔ stem = word := by
  constructor
  · rintro rfl
    have hself : stem.map nameChar = stem.map id :=
      List.map_congr_left fun c hc => nameChar_eq_self (hword _ (List.mem_map_of_mem hc)).2
    rw [hself, List.map_id]
  · rintro rfl
    have hself : stem.map nameChar = stem.map id :=
      List.map_congr_left fun c hc => if_pos (hword c hc).1
    rw [hself, List.map_id]

theorem ofText?_eq_none_iff {n : String} : Keyword.ofText? n = none ↔ ∀ k : Keyword, k.text ≠ n := by
  simp [Keyword.ofText?, Keyword.mem_all]

/-- A guess begins as a name does if its stem begins with a letter, or with what becomes a blank. -/
theorem begins_guessName (path : String) :
    ((guessName path).toList.head?.any fun c => Text.isLetter c || c = '_') =
      (stem path).head?.any fun c => Text.isLetter c || !Text.isNumeral c := by
  rw [toList_guessName, List.head?_map]
  cases (stem path).head? with
  | none => rfl
  | some c => exact begins_nameChar c

/-- A guess is a keyword only if its stem is, as no blank stands in a keyword. -/
theorem ofText?_guessName_eq_none_iff (path : String) :
    Keyword.ofText? (guessName path) = none ↔
      Keyword.ofText? (String.ofList (stem path)) = none := by
  rw [ofText?_eq_none_iff, ofText?_eq_none_iff]
  refine forall_congr' fun k => not_congr ?_
  have hplain : (Keyword.all.all fun k =>
      k.text.toList.all fun c => isNameChar c && c != '_') = true := by
    rw [isNameChar_eq_isNameCharFast]
    decide +kernel
  have hword : ∀ c ∈ k.text.toList, isNameChar c = true ∧ c ≠ '_' := fun c hc => by
    simpa using List.all_eq_true.1 (List.all_eq_true.1 hplain k k.mem_all) c hc
  rw [← String.toList_inj, toList_guessName, eq_comm, map_nameChar_eq_iff hword,
    ← String.toList_inj, String.toList_ofList, eq_comm]

/-- **When a guess is a package name.** -/
theorem isPackageName_guessName_iff {path : String} :
    IsPackageName (guessName path) ↔ IsUsable (stem path) := by
  have htext := toList_guessName path
  constructor
  · rintro ⟨hb, -, hk, hblank⟩
    rw [begins_guessName] at hb
    refine ⟨hb, (ofText?_guessName_eq_none_iff path).1 hk, fun c hc => ?_⟩
    -- a single character that is no letter would become the blank name
    by_contra hletter
    have hnumeral : Text.isNumeral c = false := by
      rw [hc] at hb
      simpa [hletter] using hb
    have hchar : nameChar c = '_' := by simp [nameChar, isNameChar, hletter, hnumeral]
    exact hblank (by rw [← String.toList_inj, htext, hc, List.map_singleton, hchar]; simp)
  · rintro ⟨hb, hk, hsingle⟩
    refine ⟨(begins_guessName path).trans hb, isNameChar_of_guessName,
      (ofText?_guessName_eq_none_iff path).2 hk, fun hblank => ?_⟩
    have hone : (stem path).map nameChar = ['_'] := by
      rw [← htext, hblank]
      simp
    obtain ⟨c, hc, hchar⟩ := List.map_eq_singleton_iff.1 hone
    have hletter := hsingle c hc
    have hself : nameChar c = c := if_pos (by simp [isNameChar, hletter])
    rw [← hself, hchar, Text.isLetter_of_lt (by decide)] at hletter
    cases hletter

end PackageId

/-! ### Guessed names in front of types

In front of a type the guess is followed by a dot. So three words come out of it if it is a name, and
something else if it is not. -/

/-- If a name behind a guess is cut into a name, a dot and a name, then the guess is a name. -/
theorem writes_of_tokenize_qualified {path n : String} {ts : Tokens} (hn : Kind.identifier.Writes n)
    (hts : tokenize (String.ofList (textOf (qualifiedPieces (PackageId.guessName path) n))) = .ok ts)
    (hkinds : ts.list.map Token.kind = [.identifier, .dot, .identifier, .semicolon]) :
    Kind.identifier.Writes (PackageId.guessName path) := by
  obtain ⟨ps, hsplit, -, hwords⟩ := exists_pieces_of_tokenize hts
  have hkinds : (wordsOfText ps).map Word.kind = [.identifier, .dot, .identifier, .semicolon] := by
    rw [← hwords, List.map_map]
    exact hkinds
  rw [String.toList_ofList, qualifiedPieces] at hsplit
  by_cases hne : PackageId.guessName path = ""
  · -- without a qualifier only the name of the type is left
    have hone : split (textOf [.name n] ++ []) = ([.name n] ++ (split []).1, (split []).2) :=
      split_of_stand ⟨hn, trivial⟩
    rw [if_pos (by rw [hne]; rfl), ← List.append_nil (textOf _), hone] at hsplit
    obtain ⟨rfl, -⟩ := Prod.mk.inj hsplit
    simp [wordsOfText, wordsOf, split, endsAfter, Word.endsStatement, Kind.endsStatement, closing]
      at hkinds
  · rw [if_neg (by simpa using hne)] at hsplit
    obtain ⟨w, ws, hfirst, hw⟩ : ∃ w ws, wordsOfText ps = w :: ws ∧ w.kind = .identifier := by
      obtain ⟨w, ws, hfirst, hw, -⟩ := List.map_eq_cons_iff.1 hkinds
      exact ⟨w, ws, hfirst, hw⟩
    have hdot : isNameChar '.' = false := isNameChar_of_lt (by decide)
    have hsplit : split ((PackageId.guessName path).toList ++ '.' :: n.toList) = (ps, []) := by
      simpa using hsplit
    exact (writes_of_words hne PackageId.isNameChar_of_guessName (by simpa using hdot) hsplit hfirst
      hw).1

/-- A name behind a qualifier that is a name is cut into both of them and the dot. -/
theorem exists_tokenize_qualified {path n : String} (hn : Kind.identifier.Writes n)
    (hname : Kind.identifier.Writes (PackageId.guessName path)) :
    ∃ ts, tokenize (String.ofList (textOf (qualifiedPieces (PackageId.guessName path) n))) = .ok ts ∧
      ts.list.map Token.kind = [.identifier, .dot, .identifier, .semicolon] := by
  have hne : PackageId.guessName path ≠ "" := fun h => by
    rw [h] at hname
    cases hname
  have hpieces : qualifiedPieces (PackageId.guessName path) n =
      [.name (PackageId.guessName path), .dot, .name n] := if_neg (by simpa using hne)
  have hstable := stable_qualified (.inr hname) hn
  rw [hpieces] at hstable ⊢
  obtain ⟨ts, hts, hwords⟩ := tokenize_of_stand (hstable.stand [] (by simp [Clear]))
    fun p hp => Piece.isWhole_of_isInline (hstable.inline p hp)
  refine ⟨ts, hts, ?_⟩
  have hkinds := congrArg (List.map Word.kind) hwords
  rw [List.map_map] at hkinds
  refine hkinds.trans ?_
  simp [wordsOfText, wordsOf, endsAfter, Word.endsStatement, Kind.endsStatement, closing, Word.lineEnd]

/-- **A type is written behind a guessed name as a name, a dot and a name** if the guess is a name, and
only then. -/
theorem tokenize_qualified_iff {path destination n : String} (hother : path ≠ destination)
    (hn : Kind.identifier.Writes n) :
    (∃ ts, tokenize ((GoType.named (.ofPath path) n).render (shortIn destination)) = .ok ts ∧
      ts.list.map Token.kind = [.identifier, .dot, .identifier, .semicolon]) ↔
      Kind.identifier.Writes (PackageId.guessName path) := by
  have htext : ((GoType.named (.ofPath path) n).render (shortIn destination)).toList =
      textOf (qualifiedPieces (PackageId.guessName path) n) := by
    have hshort : shortIn destination (.ofPath path) = PackageId.guessName path := if_neg hother
    rw [GoType.toList_render, GoType.pieces, hshort]
  rw [← String.ofList_toList (s := (GoType.named (.ofPath path) n).render (shortIn destination)), htext]
  exact ⟨fun ⟨_, hts, hkinds⟩ => writes_of_tokenize_qualified hn hts hkinds,
    exists_tokenize_qualified hn⟩

/-! ### Generated files -/

namespace HookFile

variable {t : HookFile}

/-- The pieces of a generated file up to the name of its package. -/
def frontPieces : List Piece :=
  [.lineComment header.toList, .newline, .newline, .key .packageKw, .space]

theorem stands_key_space (k : Keyword) (rest : List Char) : (Piece.key k).Stands (' ' :: rest) := by
  have hspace : isNameChar ' ' = false := isNameChar_of_lt (by decide)
  exact ((stable_key k).stand (' ' :: rest) (by simpa [Clear] using hspace)).1

theorem stand_frontPieces (rest : List Char) : Stand frontPieces rest := by
  have hheader : (Piece.lineComment header.toList).Stands [] := by decide
  exact ⟨hheader.before_newline (by simp) _, Piece.stands_of_next (c := '\n') rfl,
    Piece.stands_of_next (c := '\n') rfl, stands_key_space .packageKw _, free_space.2 rest⟩

/-- The words of a generated file are those behind the word `package`. -/
theorem wordsOfText_front (ps : List Piece) :
    wordsOfText (frontPieces ++ ps) = ⟨.keyword .packageKw, "package"⟩ :: wordsOfText ps := by
  rfl

/-- The lines below the package clause. -/
def lowerLines (t : HookFile) : List String :=
  "" :: (importLines t.fileImports ++ t.typeLines ++ t.appendLines ++ t.removeLines ++ t.forwardLines)

/-- What a generated file is cut into. -/
theorem split_render (t : HookFile) : Source.split t.render.toList =
    let behind := Source.split (t.packageName.toList ++ '\n' :: (unlines t.lowerLines).toList)
    (frontPieces ++ behind.1, behind.2) := by
  have hlines : t.lines = header :: "" :: ("package " ++ t.packageName) :: t.lowerLines := by
    simp [lines, lowerLines]
  have htext : t.render.toList = textOf frontPieces ++
      (t.packageName.toList ++ '\n' :: (unlines t.lowerLines).toList) := by
    have hrender : t.render.toList = _ := toList_unlines t.lines
    rw [hrender, hlines, toList_unlines]
    simp [frontPieces, Keyword.text]
  rw [htext, split_of_stand (stand_frontPieces _)]

/-- Below the clause of a file with imports, the first word is not a name. -/
theorem first_of_lowerLines {ps : List Piece} (himports : t.fileImports ≠ [])
    (hsplit : Source.split ('\n' :: (unlines t.lowerLines).toList) = (ps, [])) :
    ∃ ws, wordsOfText ps = ⟨.keyword .importKw, "import"⟩ :: ws := by
  obtain ⟨more, hlower⟩ : ∃ more, t.lowerLines = "" :: "import (" :: more :=
    ⟨(t.fileImports.map fun path => "\t\"" ++ path ++ "\"") ++ [")", ""] ++ (t.typeLines ++
      t.appendLines ++ t.removeLines ++ t.forwardLines), by simp [lowerLines, importLines, himports]⟩
  have htext : '\n' :: (unlines t.lowerLines).toList =
      textOf [.newline, .newline, .key .importKw] ++ (" (\n".toList ++ (unlines more).toList) := by
    rw [hlower, toList_unlines, toList_unlines]
    simp [Keyword.text]
  have hstand : Stand [.newline, .newline, .key .importKw] (" (\n".toList ++ (unlines more).toList) := by
    rw [show " (\n".toList = ' ' :: "(\n".toList from by simp]
    exact ⟨Piece.stands_of_next (c := '\n') rfl, Piece.stands_of_next (c := '\n') rfl,
      stands_key_space .importKw _, trivial⟩
  rw [htext, split_of_stand hstand] at hsplit
  obtain ⟨rfl, -⟩ := Prod.mk.inj hsplit
  exact ⟨_, rfl⟩

/-- What is read of the package clause of a generated file with imports. -/
theorem clause_of_render {file n : String} (himports : t.fileImports ≠ [])
    (hchars : ∀ c ∈ t.packageName.toList, isNameChar c = true)
    (h : parsePackageName file t.render = .ok n) :
    n = t.packageName ∧ IsPackageName t.packageName := by
  obtain ⟨ts, hts, u, w, ws, hwords, -, hw, hn, hblank⟩ := words_of_parsePackageName h
  obtain ⟨ps, hsplit, -, hall⟩ := exists_pieces_of_tokenize hts
  rw [split_render] at hsplit
  obtain ⟨rfl, hleft⟩ := Prod.mk.inj hsplit
  obtain ⟨-, hbehind⟩ : u = _ ∧ w :: ws = wordsOfText _ := by
    rw [hall, wordsOfText_front, List.dropWhile_cons_of_neg (by simp)] at hwords
    exact List.cons.inj hwords.symm
  by_cases hne : t.packageName = ""
  · -- without a name, the word behind `package` is that of the imports
    rw [hne] at hleft hbehind
    obtain ⟨more, hfirst⟩ := first_of_lowerLines himports (Prod.ext rfl (by simpa using hleft))
    have himport : w = ⟨.keyword .importKw, "import"⟩ :=
      (List.cons.inj (hbehind.trans (by simpa using hfirst))).1
    rw [himport] at hw
    cases hw
  · have hline : Clear ('\n' :: (unlines t.lowerLines).toList) := by
      have hnewline : isNameChar '\n' = false := isNameChar_of_lt (by decide)
      simpa [Clear] using hnewline
    obtain ⟨hwrites, htext⟩ := writes_of_words hne hchars hline (Prod.ext rfl hleft) hbehind.symm hw
    have hsame : n = t.packageName := hn.symm.trans htext
    exact ⟨hsame, isPackageName_iff.2 ⟨hwrites, hsame ▸ hblank⟩⟩

/-- A package name is read back from a generated file, if the file has tokens. -/
theorem parsePackageName_render {ts : Tokens} (hname : IsPackageName t.packageName)
    (hts : tokenize t.render = .ok ts) (file : String) :
    parsePackageName file t.render = .ok t.packageName := by
  obtain ⟨hwrites, hblank⟩ := isPackageName_iff.1 hname
  obtain ⟨ps, hsplit, -, hall⟩ := exists_pieces_of_tokenize hts
  have hstand : Stand [.name t.packageName, .newline] (unlines t.lowerLines).toList := by
    have hnewline : isNameChar '\n' = false := isNameChar_of_lt (by decide)
    refine ⟨((stable_name hwrites).stand _ ?_).1, Piece.stands_of_next (c := '\n') rfl, trivial⟩
    simpa [Clear] using hnewline
  have hbehind : t.packageName.toList ++ '\n' :: (unlines t.lowerLines).toList =
      textOf [.name t.packageName, .newline] ++ (unlines t.lowerLines).toList := by
    simp
  rw [split_render, hbehind, split_of_stand hstand] at hsplit
  obtain ⟨rfl, -⟩ := Prod.mk.inj hsplit
  have hwords : ts.list.map Token.word =
      [⟨.keyword .packageKw, "package"⟩, ⟨.identifier, t.packageName⟩, .lineEnd] ++
        wordsOfText (Source.split (unlines t.lowerLines).toList).1 := by
    rw [hall, wordsOfText_front]
    simp [wordsOfText, wordsOf, endsAfter, Word.endsStatement, Kind.endsStatement, closing]
  obtain ⟨clause, rest, hlist, hclause, -⟩ := List.map_eq_append_iff.1 hwords
  have hreports : packageClause.Reports _ _ fun _ => True := reports_packageClause hblank
  obtain ⟨_, references, hread, rfl, -⟩ := hreports clause rest hclause trivial
  rw [← hlist] at hread
  rw [parsePackageName, readText_eq_ok.2 ⟨ts, hts, hread⟩]
  rfl

theorem IsMethod.lexesAll {lines : List String} (h : IsMethod lines) :
    ∃ words, LexesAll lines words := by
  obtain ⟨_, ⟨words, hlexes, -⟩, -⟩ := h
  exact ⟨words, hlexes⟩

/-- **A sound file has tokens**, whatever its imports mean. -/
theorem Sound.exists_tokens {ref : InterfaceRef} (h : t.Sound ref) :
    ∃ ts, tokenize t.render = .ok ts := by
  have hfront : LexesAll [header, "", "package " ++ t.packageName, ""] _ :=
    .cons lexes_header <| .cons lexes_empty <| .cons (lexes_packageLine h.package.1) <|
      .cons lexes_empty .nil
  have himports := lexesAll_importLines fun path hpath => (h.imports path hpath).1
  have htypes := lexesAll_typeLines h.hook h.method h.interface.1 h.interface.2 default default default
  obtain ⟨_, happend⟩ := IsMethod.lexesAll (isMethod_appendLines h.names h.interface.1)
  obtain ⟨_, hremove⟩ := IsMethod.lexesAll (isMethod_removeLines h.names)
  obtain ⟨_, hforward⟩ := IsMethod.lexesAll
    (isMethod_forwardLines h.names h.declarationArgs h.callArgs)
  obtain ⟨wss, hwss, -⟩ :=
    ((((hfront.append himports).append htypes).append happend).append hremove).append hforward
  obtain ⟨ts, hts, -⟩ := tokenize_lines hwss
  exact ⟨ts, hts⟩

end HookFile

section

variable {source name : String} {sources : List SourceText} {files : List File}
  {config : Config} {t : HookFile}

/-- **The package clause of a hook in another package** gives the name guessed from the path, and it is
read just if the guess is a package name. -/
theorem HookFile.clause_elsewhere {path : String} (hloads : Loads source sources name files)
    (hplan : HookFile.ofInterface (linkFiles source name files) config.source.object (.ofPath path)
      config = .ok t) (hother : path ≠ source) :
    t.packageName = PackageId.guessName path ∧
      (∀ file n, parsePackageName file t.render = .ok n →
        n = t.packageName ∧ IsPackageName (PackageId.guessName path)) ∧
      (IsWritable source files (linkFiles source name files) path config.destination.hookName →
        ∀ file, parsePackageName file t.render = .ok t.packageName ↔
          IsPackageName (PackageId.guessName path)) := by
  obtain ⟨method, -, hplanned⟩ := HookFile.ofInterface_eq_ok.1 hplan
  have hsettles := HookFile.settles_of_ofMethod hplanned
  have hsame : ¬Target.samePackage ⟨(linkFiles source name files).id, .ofPath path⟩ = true := by
    simpa [Target.samePackage, PackageId.ofPath] using Ne.symm hother
  have hname : t.packageName = PackageId.guessName path := by
    rw [hsettles.packageName, Target.packageName, if_neg hsame]
    rfl
  -- the package of the interface is imported
  have himports : t.fileImports ≠ [] := by
    have hsource : source ∈ t.fileImports := by
      refine HookFile.mem_fileImports.2 (.inl ((hsettles.imports _).2 ⟨Ne.symm hother, .inr ?_⟩))
      simp
    exact List.ne_nil_of_mem hsource
  have hread (file n : String) (h : parsePackageName file t.render = .ok n) :
      n = t.packageName ∧ IsPackageName (PackageId.guessName path) := by
    have hclause := HookFile.clause_of_render himports
      (hname ▸ PackageId.isNameChar_of_guessName) h
    exact ⟨hclause.1, hname ▸ hclause.2⟩
  refine ⟨hname, hread, fun hwritable file => ⟨fun h => (hread file _ h).2, fun hproper => ?_⟩⟩
  have hsound := HookFile.sound_of_writable hloads hplan (hname ▸ isPackageName_iff.1 hproper) hwritable
  obtain ⟨ts, hts⟩ := hsound.exists_tokens
  exact HookFile.parsePackageName_render (hname ▸ hproper) hts file

end

/-! ### Runs -/

/-- A package that was loaded from a directory is put together from files. -/
theorem Workspace.exists_loads {w : Workspace} {dir : String} {pkg : Package}
    (h : w.load dir = .ok pkg) :
    ∃ source sources name files, Loads source sources name files ∧
      pkg = linkFiles source name files := by
  obtain ⟨source, -, h⟩ := except_bind_eq_ok.1 h
  obtain ⟨_, -, h⟩ := except_bind_eq_ok.1 h
  obtain ⟨sources, -, h⟩ := except_bind_eq_ok.1 h
  obtain ⟨name, files, hloads⟩ := Package.ofSources_eq_ok.1 (Package.ofSourcesIn_place h)
  exact ⟨source, sources, name, files, hloads⟩

/-- What is planned in a run. -/
theorem Workspace.plan_eq_ok {w : Workspace} {config : Config} {t : HookFile} :
    w.plan config = .ok t ↔ config.validate = .ok () ∧ ∃ pkg path, w.load config.source.dir = .ok pkg ∧
      w.importPath config.destination.dir = .ok path ∧
      HookFile.ofInterface pkg config.source.object (.ofPath path) config = .ok t := by
  constructor
  · intro h
    obtain ⟨⟨method, target⟩, hexamine, h⟩ := except_bind_eq_ok.1 h
    obtain ⟨hvalid, pkg, path, hpkg, hpath, hmethod, rfl⟩ := examine_eq_ok.1 hexamine
    exact ⟨hvalid, pkg, path, hpkg, hpath,
      HookFile.ofInterface_eq_ok.2 ⟨method, hmethod, mapError_eq_ok.1 h⟩⟩
  · rintro ⟨hvalid, pkg, path, hpkg, hpath, hplan⟩
    obtain ⟨method, hmethod, hplan⟩ := HookFile.ofInterface_eq_ok.1 hplan
    exact except_bind_eq_ok.2 ⟨(method, _),
      examine_eq_ok.2 ⟨hvalid, pkg, path, hpkg, hpath, hmethod, rfl⟩, mapError_eq_ok.2 hplan⟩

/-- **Guessed names as package names.** Whatever a path is, the characters of the name guessed from it
can stand in a name, and the guess is a package name just if something usable is left of the path without
the major version and the language. A hook that goes to a package of another path than its interface
gives the guess as its package, and no other name is read from its package clause; if nothing else spoils
its text, the clause is read just if the guess is a package name. And a type of a package of that path is
written as two names with a dot between them just if the guess is a name. -/
theorem guessName_as_packageName (path : String) :
    (∀ c ∈ (PackageId.guessName path).toList, isNameChar c = true) ∧
    (IsPackageName (PackageId.guessName path) ↔ PackageId.IsUsable (PackageId.stem path)) ∧
    (∀ (w : Workspace) config t, w.plan config = .ok t →
      w.importPath config.destination.dir = .ok path → w.importPath config.source.dir ≠ .ok path →
        t.packageName = PackageId.guessName path ∧
        (∀ file n, parsePackageName file t.render = .ok n →
          n = t.packageName ∧ IsPackageName (PackageId.guessName path)) ∧
        ∀ source sources name files, Loads source sources name files →
          w.load config.source.dir = .ok (linkFiles source name files) →
          IsWritable source files (linkFiles source name files) path config.destination.hookName →
            ∀ file, parsePackageName file t.render = .ok t.packageName ↔
              IsPackageName (PackageId.guessName path)) ∧
    ∀ destination n, path ≠ destination → Kind.identifier.Writes n →
      ((∃ ts, tokenize ((GoType.named (.ofPath path) n).render (shortIn destination)) = .ok ts ∧
          ts.list.map Token.kind = [.identifier, .dot, .identifier, .semicolon]) ↔
        Kind.identifier.Writes (PackageId.guessName path)) := by
  refine ⟨fun _ => PackageId.isNameChar_of_guessName _, PackageId.isPackageName_guessName_iff,
    fun w config t hrun hpath hsource => ?_, fun _ _ => tokenize_qualified_iff⟩
  obtain ⟨-, pkg, path', hload, hpath', hplan⟩ := Workspace.plan_eq_ok.1 hrun
  obtain rfl : path = path' := Except.ok.inj (hpath.symm.trans hpath')
  have hother {source name : String} {files : List File} (hpkg : pkg = linkFiles source name files) :
      path ≠ source := by
    rintro rfl
    have hown := Workspace.importPath_of_load hload
    rw [hpkg, id_linkFiles] at hown
    exact hsource hown
  obtain ⟨source, sources, name, files, hloads, hpkg⟩ := Workspace.exists_loads hload
  obtain ⟨hname, hread, -⟩ := HookFile.clause_elsewhere hloads (hpkg ▸ hplan) (hother hpkg)
  refine ⟨hname, hread, fun source' sources' name' files' hloads' hload' => ?_⟩
  have hpkg' : pkg = linkFiles source' name' files' := Except.ok.inj (hload.symm.trans hload')
  exact (HookFile.clause_elsewhere hloads' (hpkg' ▸ hplan) (hother hpkg')).2.2

/-- **Not every path with a letter in it suggests a package name**: a numeral in front is kept, and so
are a keyword and a lone underscore, and of `go-` nothing is left. -/
theorem not_isPackageName_guessName :
    ["m/3d", "m/func", "m/_", "m/go-"].map PackageId.guessName = ["3d", "func", "_", ""] ∧
    (∀ n ∈ ["3d", "func", "_", ""], ¬IsPackageName n) ∧
    ¬∀ path : String, (∃ c ∈ path.toList, Text.isLetter c = true) →
      IsPackageName (PackageId.guessName path) := by
  refine ⟨by decide +kernel, by decide +kernel, fun h => ?_⟩
  have hname := h "m/3d" ⟨'m', by simp, by decide +kernel⟩
  revert hname
  decide +kernel

namespace Workspace

open Files

/-- A hook for the ear, in a directory of its own. -/
def besideConfig (dir : String) : Config where
  source := ⟨"ears/../ears", "Ear"⟩
  destination := ⟨dir, "Hook"⟩
  formatter := .noop

/-- The import path of a directory beside the package of `ears`. -/
theorem importPath_ears_beside {name : String} (h : Path.absolute ears.cwd name = ["m", name]) :
    ears.importPath name = .ok ("/".intercalate ["example.com/m", name]) := by
  have hgoverned : ears.GovernedBy ["m", name] ["m"] := by
    refine ⟨⟨[name], rfl⟩, ⟨_, namesModule_ears⟩, ?_⟩
    rintro between ⟨front, rfl⟩ ⟨back, hback⟩ hne contents hfile
    obtain ⟨rfl, rfl⟩ : front = [name] ∧ back = [] := by
      rcases front with _ | ⟨first, front⟩ <;> simp_all
    simp [ears, Tree.get?, moduleFile, List.lookup_cons] at hfile
  obtain ⟨below, hbelow, hpath⟩ := hgoverned.importPathFrom namesModule_ears
  obtain rfl : [name] = below := (List.cons.inj hbelow).2
  rw [importPath, h, hpath]

/-- The hook is planned wherever it goes, since its names are free. -/
theorem exists_plan_beside {dir path : String}
    (h : ears.importPath (besideConfig dir).destination.dir = .ok path) :
    ∃ t, ears.plan (besideConfig dir) = .ok t := by
  obtain ⟨method, target, file, hexamine, hplan⟩ := exists_plan_ears
  obtain ⟨-, pkg, _, hload, -, hmethod, rfl⟩ := examine_eq_ok.1 hexamine
  obtain ⟨hmember, htype, -⟩ := HookFile.exists_ofMethod_iff.1 ⟨file, hplan⟩
  have hother : (besideConfig dir).destination.hookName ≠ "Ear" := by
    simp [besideConfig, Location.hookName]
  have hvalid : (besideConfig dir).validate = .ok () := by
    simp [besideConfig, Config.validate, Location.isEmpty]
  obtain ⟨t, ht⟩ : ∃ t, HookFile.ofMethod (besideConfig dir) method ⟨pkg.id, .ofPath path⟩ = .ok t :=
    HookFile.exists_ofMethod_iff.2 ⟨hmember, htype, fun _ => hother⟩
  exact ⟨t, plan_eq_ok.2 ⟨hvalid, pkg, path, hload, h,
    HookFile.ofInterface_eq_ok.2 ⟨method, hmethod, ht⟩⟩⟩

theorem guessName_as_packageName_ears :
    (∃ t, ears.plan (besideConfig "hear") = .ok t ∧
      ∀ file, parsePackageName file t.render = .ok "hear") ∧
    ∃ t, ears.plan (besideConfig "3d") = .ok t ∧ t.packageName = "3d" ∧
      ∀ file n, parsePackageName file t.render ≠ .ok n := by
  -- both destinations are other packages than the source
  have hsource {path : String} (h : path ≠ "example.com/m/ears") :
      ears.importPath "ears/../ears" ≠ .ok path := by
    rw [importPath_ears_package (by decide +kernel)]
    exact fun heq => h (Except.ok.inj heq).symm
  constructor
  · have hpath : ears.importPath (besideConfig "hear").destination.dir = .ok "example.com/m/hear" :=
      (importPath_ears_beside (by decide +kernel)).trans (by decide)
    obtain ⟨t, hrun⟩ := exists_plan_beside hpath
    obtain ⟨pkg, hpkg, hplain⟩ : ∃ pkg,
        Package.ofSources "example.com/m/ears" [⟨"ear.go", earText⟩] = .ok pkg ∧
          (pkg.objects.all fun object => object.kind.types.all fun type =>
            type.everywhere fun s => match s with
              | .array _ _ => false
              | _ => true) = true :=
      Package.exists_ofSources_singleton String.toList_ofList (by decide +kernel)
    obtain ⟨name, files, hloads, rfl⟩ := Package.ofSources_eq_ok.1 hpkg
    have hload : ears.load "ears/../ears" = .ok (linkFiles "example.com/m/ears" name files) :=
      load_ears.trans (Package.ofSourcesIn_place hpkg)
    have hnone : ∀ file ∈ files, file.imports = [] :=
      hloads.of_sources (parsed_of_all (by
        simp only [earText, List.map_cons, List.map_nil, SourceText.chars]
        rw [String.toList_ofList]
        decide +kernel))
    have hwritable : IsWritable "example.com/m/ears" files
        (linkFiles "example.com/m/ears" name files) "example.com/m/hear" "Hook" := by
      constructor
      case hook => decide +kernel
      case source => exact fun _ => ⟨.of_all (by decide +kernel) (by decide +kernel), by decide⟩
      case imports =>
        intro file hfile i hi
        rw [hnone file hfile] at hi
        cases hi
      case lengths =>
        intro object hobject s hs n elem hhas
        have htype := List.all_eq_true.1 (List.all_eq_true.1 hplain object hobject) s hs
        cases GoType.everywhere_iff.1 htype _ hhas
    obtain ⟨-, -, hclause, -⟩ := guessName_as_packageName "example.com/m/hear"
    obtain ⟨hname, -, hread⟩ := hclause ears _ t hrun hpath (hsource (by decide))
    have hguess : PackageId.guessName "example.com/m/hear" = "hear" := by decide +kernel
    rw [hguess] at hname hread
    refine ⟨t, hrun, fun file => ?_⟩
    rw [(hread _ _ _ _ hloads hload hwritable file).2 (by decide +kernel), hname]
  · have hpath : ears.importPath (besideConfig "3d").destination.dir = .ok "example.com/m/3d" :=
      (importPath_ears_beside (by decide +kernel)).trans (by decide)
    obtain ⟨t, hrun⟩ := exists_plan_beside hpath
    obtain ⟨-, -, hclause, -⟩ := guessName_as_packageName "example.com/m/3d"
    obtain ⟨hname, hread, -⟩ := hclause ears _ t hrun hpath (hsource (by decide))
    have hguess : PackageId.guessName "example.com/m/3d" = "3d" := by decide +kernel
    rw [hguess] at hname hread
    refine ⟨t, hrun, hname, fun file n h => ?_⟩
    have hproper := (hread file n h).2
    revert hproper
    decide +kernel

end Workspace

end Multicast
