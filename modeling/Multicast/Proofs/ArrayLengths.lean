import Multicast.Proofs.Onwards
import Multicast.Proofs.Positions
import Multicast.Proofs.Respaced

/-!
# Lengths of arrays

The length of an array is not understood. Its tokens are those up to the bracket that closes it, and
what is kept of them is their texts in a row. Wherever a type is read, an array type is read as an array
with the length that stands there (`typeExpr_of_arrayAt`), except that three dots are no length.

Two things are lost. A definition that begins with a bracket and a name is taken for type parameters
unless the bracket is closed right behind the name, so that `[N + 1]int` is not declared as an array,
though behind `=` it is. And between the tokens of a length nothing is put, so that the text of a length
has the tokens that were written only if none of them runs on into the next one. A minus in front of a
negative number does.

## From tokens to files

Three things are put together. `typeExpr_of_arrayAt` settles what is read where an array type stands,
given the tokens between its brackets (`ArrayAt`). `typeKind_of_arrayAt` settles which definitions are
read at all, and it is here that the look at two tokens, which is to find type parameters, takes some
lengths for them. `has_array_of_places` carries an array type inside a definition to the type that is
declared, along the places of `Scope.TypeAt`. The statement on files, `parseFile_arrays`, names the
declaration by its place in the file (`IsDeclared`).

Whether the text of a length can be taken apart again is a question on pieces, and it is answered by the
notion of standing (`Piece.Stands`): a token has to stand before the text of the next one.
-/

namespace Multicast

open Source

/-! ### Tokens in brackets

The end of a length is found by counting brackets and parentheses, and braces are not counted. So the
tokens of a length may hold braces without their partners, and then the length goes on where a reader of
types would have stopped. -/

/-- How many brackets and parentheses are open behind tokens of these kinds. None of them closes what
was not opened. -/
def openBehind : Nat → List Kind → Option Nat
  | depth, [] => some depth
  | depth, .leftBracket :: ks | depth, .leftParen :: ks => openBehind (depth + 1) ks
  | 0, .rightBracket :: _ | 0, .rightParen :: _ => none
  | depth + 1, .rightBracket :: ks | depth + 1, .rightParen :: ks => openBehind depth ks
  | depth, _ :: ks => openBehind depth ks

/-- Tokens that may stand for the length of an array. -/
structure Bracketed (length : List Token) : Prop where
  ne_nil : length ≠ []
  balanced : openBehind 0 (length.map Token.kind) = some 0

/-- The text that is kept of a length. -/
def lengthText (length : List Token) : String :=
  String.join (length.map Token.text)

/-- Some tokens begin with a length in brackets, and the type of the elements stands behind it. -/
inductive ArrayAt (length behind : List Token) : List Token → Prop
  | mk {opening closing : Token} (hopening : opening.kind = .leftBracket) (hlength : Bracketed length)
    (hclosing : closing.kind = .rightBracket) :
    ArrayAt length behind (opening :: (length ++ closing :: behind))

/-- Whether a length begins with a name and does not end there. -/
def goesOnBehindName : List Token → Bool
  | first :: _ :: _ => first.kind = .identifier
  | _ => false

namespace Source

/-! ### Words in a row

Words without blanks between them are cut as they were written if none runs on into the next one. The
blanks are not kept with a length, so this is all that is known of its text. -/

theorem Word.IsLexed.text_ne_nil {w : Word} (h : w.IsLexed) : w.text.toList ≠ [] := by
  rcases h with rfl | hwrites
  · decide
  · obtain ⟨c, cs, hcs, -⟩ := Piece.Stands.next hwrites
    intro hnil
    rw [Piece.text, hnil] at hcs
    cases hcs

/-- Whether a line that ends behind words ends a statement. -/
def endsBehind (ends : Bool) (ws : List Word) : Bool :=
  (ws.getLast?.map Word.endsStatement).getD ends

@[simp] theorem endsBehind_cons (ends : Bool) (w : Word) (ws : List Word) :
    endsBehind ends (w :: ws) = endsBehind w.endsStatement ws := by
  cases ws <;> simp [endsBehind, List.getLast?_cons]

/-- Line ends are in their places in a part of words as well. -/
theorem InPlace.right {ws ws' : List Word} {ends : Bool} (h : InPlace ends (ws ++ ws')) :
    InPlace (endsBehind ends ws) ws' := by
  induction ws generalizing ends with
  | nil => exact h
  | cons w ws ih =>
    rw [endsBehind_cons]
    exact ih h.2

/-- **The pieces of words are these words.** -/
theorem wordsOf_map_piece {ws more : List Word} {ends : Bool} (h : InPlace ends (ws ++ more)) :
    wordsOf ends (ws.map Word.piece) = ws ∧
      endsAfter ends (ws.map Word.piece) = endsBehind ends ws := by
  induction ws generalizing ends with
  | nil => exact ⟨rfl, rfl⟩
  | cons w ws ih =>
    obtain ⟨hw, hmore⟩ := h
    obtain ⟨hwords, hends⟩ := ih hmore
    rw [List.map_cons, (wordsOf_cons_piece hw _).1, (wordsOf_cons_piece hw _).2, hwords, hends,
      endsBehind_cons]
    exact ⟨rfl, rfl⟩

/-- **Words in a row stand** if none of them runs on into the first character of the next one. -/
theorem stand_map_piece {ws : List Word} (h : ∀ w ∈ ws, w.IsLexed)
    (hgap : ws.IsChain fun w w' => ∀ c ∈ w'.text.toList.head?, w.piece.sticksTo c = false) :
    Stand (ws.map Word.piece) [] := by
  have hstands {w : Word} (hw : w.IsLexed) {rest : List Char}
      (hrest : ∀ c ∈ rest.head?, w.piece.sticksTo c = false) : w.piece.Stands rest := by
    rw [Word.piece] at hrest ⊢
    split
    next => exact Piece.stands_of_next (c := '\n') rfl
    next hne =>
      rw [if_neg hne] at hrest
      exact Piece.Stands.before (hw.resolve_left hne) (by simp) hrest
  induction ws with
  | nil => trivial
  | cons w ws ih =>
    have hw := h w List.mem_cons_self
    have hws := fun v hv => h v (List.mem_cons_of_mem w hv)
    refine ⟨hstands hw ?_, ih hws hgap.of_cons⟩
    cases ws with
    | nil => simp
    | cons w' ws =>
      have hne := (hws w' List.mem_cons_self).text_ne_nil
      rw [List.map_cons, textOf, List.flatMap_cons, w'.text_piece, List.append_assoc,
        List.head?_append_of_ne_nil _ hne]
      exact (List.isChain_cons_cons.1 hgap).1

end Source

namespace Syntax

open Multicast.Syntax.Parser

variable {scope : Scope}

/-- **What is balanced belongs to the length.** -/
theorem lengthTokens_append {tokens : List Token} {depth due : Nat}
    (h : openBehind depth (tokens.map Token.kind) = some due) (rest : List Token) :
    lengthTokens depth (tokens ++ rest) =
      (lengthTokens due rest).map fun found => (tokens ++ found.1, found.2) := by
  induction tokens generalizing depth with
  | nil =>
    cases h
    simp
  | cons t tokens ih =>
    have hcons {n : Nat} (hn : openBehind n (tokens.map Token.kind) = some due) :
        (lengthTokens n (tokens ++ rest)).map (fun found => (t :: found.1, found.2)) =
          (lengthTokens due rest).map fun found => (t :: tokens ++ found.1, found.2) := by
      rw [ih hn, Option.map_map]
      rfl
    rw [List.cons_append, lengthTokens]
    rw [List.map_cons] at h
    -- a bracket that closes is the end of the length only where nothing is open
    cases hkind : t.kind <;> cases depth <;> rw [hkind] at h <;>
      first | cases h | exact hcons h

theorem arrayLength_of_bracketed {length : List Token} {closing : Token} (h : Bracketed length)
    (hclosing : closing.kind = .rightBracket) (behind : List Token) :
    arrayLength (length ++ closing :: behind) =
      if lengthText length = "" ∨ lengthText length = "..." then wanted .arrayLength behind
      else .ok ⟨lengthText length, [], behind⟩ := by
  have hfound : lengthTokens 0 (length ++ closing :: behind) = some (length, behind) := by
    rw [lengthTokens_append h.balanced, lengthTokens, if_pos ⟨hclosing, rfl⟩]
    simp
  exact arrayLength_of_found hfound

theorem nextKind_ne_of_bracketed {length : List Token} (h : Bracketed length) (rest : List Token) :
    nextKind (length ++ rest) ≠ some .rightBracket := by
  obtain ⟨hne, hbalanced⟩ := h
  cases length with
  | nil => exact absurd rfl hne
  | cons t tokens =>
    intro hnext
    have hkind : t.kind = .rightBracket := Option.some.inj hnext
    rw [List.map_cons, hkind] at hbalanced
    cases hbalanced

variable {length behind us : List Token}

/-- **An array type is read as an array**, and three dots are not its length. -/
theorem typeExpr_of_arrayAt (h : ArrayAt length behind us) (htext : lengthText length ≠ "") :
    typeExpr scope us = if lengthText length = "..." then wanted .arrayLength behind
      else (typeExpr scope >>= fun elem => pure (.array (lengthText length) elem)) behind := by
  obtain @⟨opening, closing, hopening, hlength, hclosing⟩ := h
  rw [typeExpr_bracket hopening, bind_of_ok (accept_of_ne (nextKind_ne_of_bracketed hlength _)),
    if_neg Bool.false_ne_true]
  have hread := arrayLength_of_bracketed hlength hclosing behind
  split
  next hdots =>
    rw [if_pos (.inr hdots)] at hread
    change (arrayLength >>= _).run _ = _
    rw [run_bind, run, hread]
    rfl
  next hdots =>
    rw [if_neg (not_or.2 ⟨htext, hdots⟩)] at hread
    exact bind_of_ok hread

/-! ### Definitions -/

/-- **A name behind the bracket** is taken for a type parameter unless the bracket is closed behind it. -/
theorem isGeneric_of_arrayAt (h : ArrayAt length behind us) :
    isGeneric us = goesOnBehindName length := by
  obtain @⟨opening, closing, hopening, ⟨hne, hbalanced⟩, hclosing⟩ := h
  match length, hne, hbalanced with
  | [t], _, _ => simp [isGeneric, goesOnBehindName, hclosing]
  | t :: u :: length, _, hbalanced =>
    have hgoes : t.kind = .identifier → u.kind ≠ .rightBracket := by
      intro ht hu
      rw [List.map_cons, List.map_cons, ht, hu] at hbalanced
      cases hbalanced
    simpa [isGeneric, goesOnBehindName, hopening] using hgoes

/-- What is behind the sign of an alias, if there is one. -/
def behindAssign (definition : List Token) : List Token :=
  if nextKind definition = some .assign then definition.tail else definition

theorem typeDefinition_eq (definition : List Token) : typeDefinition scope definition =
    (typeExpr scope >>= fun type => pure (.type type (nextKind definition == some .assign)))
      (behindAssign definition) := by
  rw [typeDefinition, behindAssign]
  by_cases hassign : nextKind definition = some .assign
  · obtain ⟨t, rest, rfl, ht⟩ := exists_cons_of_nextKind hassign
    rw [bind_of_ok (accept_of_eq ht rest), if_pos hassign, hassign]
    rfl
  · rw [bind_of_ok (accept_of_ne hassign), if_neg hassign, beq_eq_false_iff_ne.2 hassign]

variable {definition : List Token} {kind : Parsed ObjectKind}

/-- **What declares an array type** behind the sign of an alias is an array. Without the sign it is one
unless the length goes on behind a name. -/
theorem typeKind_of_arrayAt (h : ArrayAt length behind (behindAssign definition))
    (htext : lengthText length ≠ "" ∧ lengthText length ≠ "...") {elem : Parsed GoType}
    (helem : typeExpr scope behind = .ok elem) (hkind : typeKind scope definition = .ok kind) :
    kind.value = if nextKind definition ≠ some .assign ∧ goesOnBehindName length = true
      then .unsupported genericReason
      else .type (.array (lengthText length) elem.value) (nextKind definition == some .assign) := by
  have hread : typeDefinition scope definition = .ok ⟨.type (.array (lengthText length) elem.value)
      (nextKind definition == some .assign), elem.references, elem.rest⟩ := by
    rw [typeDefinition_eq]
    refine bind_eq_ok.2 ⟨⟨.array (lengthText length) elem.value, elem.references, elem.rest⟩, _, ?_,
      rfl, by simp⟩
    rw [typeExpr_of_arrayAt h htext.1, if_neg htext.2]
    exact bind_eq_ok.2 ⟨elem, _, helem, rfl, by simp⟩
  have hgeneric : isGeneric definition =
      decide (nextKind definition ≠ some .assign ∧ goesOnBehindName length = true) := by
    by_cases hassign : nextKind definition = some .assign
    · obtain ⟨t, rest, rfl, ht⟩ := exists_cons_of_nextKind hassign
      cases rest <;> simp [isGeneric, ht, hassign]
    · rw [behindAssign, if_neg hassign] at h
      simp [isGeneric_of_arrayAt h, hassign]
  rcases typeKind_eq_ok_iff.1 hkind with ⟨hplain, hok⟩ | ⟨reason, rest, -, rfl, hreason⟩
  · cases hread.symm.trans hok
    rw [hgeneric, decide_eq_false_iff_not] at hplain
    rw [if_neg hplain]
  · rcases hreason with ⟨hparameters, rfl⟩ | ⟨-, e, herror, -⟩
    · rw [hgeneric, decide_eq_true_eq] at hparameters
      rw [if_pos hparameters]
    · cases hread.symm.trans herror

/-- **What stands inside of a definition** that is read: an array is read, and occurs in it. -/
theorem has_array_of_places (h : ArrayAt length behind us) (htext : lengthText length ≠ "")
    {type : GoType} {isAlias : Bool} (hkind : typeKind scope definition = .ok kind)
    (htype : kind.value = .type type isAlias) (hplace : scope.Places (behindAssign definition) us) :
    ∃ elem, typeExpr scope behind = .ok elem ∧
      type.Has (.array (lengthText length) elem.value) := by
  rcases typeKind_eq_ok_iff.1 hkind with ⟨-, hread⟩ | ⟨_, _, -, rfl, -⟩
  · rw [typeDefinition_eq] at hread
    obtain ⟨whole, hwhole, rfl⟩ := bind_pure_eq_ok.1 hread
    cases htype
    obtain ⟨inner, hinner, t, ht, hhas⟩ := readsIn_of_places hwhole hplace
    obtain rfl := List.mem_singleton.1 ht
    rw [typeExpr_of_arrayAt h htext] at hinner
    split at hinner
    next => cases behind <;> cases hinner
    next =>
      obtain ⟨elem, helem, rfl⟩ := bind_pure_eq_ok.1 hinner
      exact ⟨elem, helem, hhas⟩
  · cases htype

/-! ### The text of a length

The text can be longer than a token and still be one token when it is read again, as two names in a row
are. Where it is cut into its tokens, they are the tokens of the length, apart from their places. -/

theorem toList_lengthText (length : List Token) :
    (lengthText length).toList = textOf ((length.map Token.word).map Word.piece) := by
  induction length with
  | nil => rfl
  | cons t length ih =>
    rw [lengthText, List.map_cons, String.join_cons, String.toList_append, ← lengthText, ih,
      List.map_cons, List.map_cons, textOf, textOf, List.flatMap_cons, Word.text_piece]
    rfl

/-- The pieces of the text that is kept of a length, as they were written. -/
abbrev lengthPieces (length : List Token) : List Piece :=
  (length.map Token.word).map Word.piece

/-- **The text of a length is cut into its tokens** just if each of them stands before the next one. -/
theorem split_lengthText (length : List Token) :
    split (lengthText length).toList = (lengthPieces length, []) ↔ Stand (lengthPieces length) [] := by
  rw [toList_lengthText]
  constructor
  · intro h
    have hstand := stand_split (textOf (lengthPieces length))
    rwa [h] at hstand
  · intro h
    simpa [split] using split_of_stand h

/-- In a text no length begins with a line end. -/
theorem inPlace_of_arrayAt {text : String} {ts : Tokens} (hts : tokenize text = .ok ts)
    (h : ArrayAt length behind us) (hus : us <:+ ts.list) :
    ∃ more, InPlace false (length.map Token.word ++ more) := by
  obtain @⟨opening, closing, hopening, -, -⟩ := h
  obtain ⟨before, hlist⟩ := hus
  have hplace := inPlace_of_tokenize hts
  rw [← hlist, List.map_append, List.map_cons, List.map_append] at hplace
  have hlexed : opening.word.IsLexed := isLexed_of_tokenize hts (by simp [← hlist])
  have hends : opening.word.endsStatement = false := by
    have hbracket : ¬Kind.leftBracket.Writes "++" ∧ ¬Kind.leftBracket.Writes "--" := by
      decide
    rcases hlexed with hline | hwrites
    · cases hopening.symm.trans (congrArg Word.kind hline)
    · change opening.kind.Writes opening.text at hwrites
      rw [hopening] at hwrites
      have hplus : opening.text ≠ "++" := fun heq => hbracket.1 (heq ▸ hwrites)
      have hminus : opening.text ≠ "--" := fun heq => hbracket.2 (heq ▸ hwrites)
      simp [Word.endsStatement, Token.word, hopening, Kind.endsStatement, hplus, hminus]
  exact ⟨_, hends ▸ hplace.right.2⟩

/-- **Its tokens come back** then. -/
theorem tokenize_lengthText {text : String} {ts : Tokens} (hts : tokenize text = .ok ts)
    (h : ArrayAt length behind us) (hus : us <:+ ts.list) (hstand : Stand (lengthPieces length) []) :
    ∃ ts', tokenize (lengthText length) = .ok ts' ∧ ts'.list.map Token.word =
      length.map Token.word ++ closing (endsBehind false (length.map Token.word)) := by
  obtain ⟨more, hplace⟩ := inPlace_of_arrayAt hts h hus
  obtain ⟨hwords, hends⟩ := wordsOf_map_piece hplace
  obtain ⟨ts', hts', hsame⟩ := tokenize_of_stand hstand fun q hq => by
    obtain ⟨w, -, rfl⟩ := List.mem_map.1 hq
    exact w.isWhole_piece
  rw [← toList_lengthText, String.ofList_toList] at hts'
  refine ⟨ts', hts', ?_⟩
  rw [hsame, wordsOfText, hwords, hends]

/-! ### Files -/

/-- **A name declares a type** in a file, in a group or behind the keyword. The declarations in front
of it are `ds`. -/
inductive IsDeclared (path : String) (tokens : List Token) (ds : List Declaration) (name : Token)
    (definition : List Token) : Prop
  | single {kw : Token} (hkw : kw.kind = .keyword .typeKw) (hname : name.kind = .identifier)
    (h : IsPlace path tokens false ds (kw :: name :: definition))
  | grouped (hname : name.kind = .identifier) (h : IsPlace path tokens true ds (name :: definition))

/-- What a name declares is made of the tokens behind it. -/
theorem exists_typeKind_of_reaches {tokens here : List Token} {ds : List Declaration}
    {references : List Reference} {grouped : Bool} {first name : Token}
    {all : Parsed (List Declaration)}
    (hreaches : Reaches scope .file tokens ds references (.ofGrouped grouped) (first :: here))
    (hround : round scope (.ofGrouped grouped) (first :: here) =
      (declaredType scope >>= fun d => pure ([d], Stage.behind grouped)) (name :: definition))
    (hall : reading scope .file tokens = .ok all) :
    ∃ kind more, typeKind scope definition = .ok kind ∧
      all.value = ds ++ ⟨⟨name.text, kind.value⟩, name.pos⟩ :: more := by
  rw [hreaches.reading_eq] at hall
  cases hfrom : reading scope (.ofGrouped grouped) (first :: here) with
  | error e =>
    rw [hfrom] at hall
    cases hall
  | ok read =>
    rw [hfrom] at hall
    cases hall
    rcases reading_eq_ok_iff.1 hfrom with ⟨hnil, -⟩ | ⟨_, others, hfirst, -, rfl⟩
    · cases hnil
    · rw [hround] at hfirst
      obtain ⟨d, hd, rfl⟩ := bind_pure_eq_ok.1 hfirst
      obtain ⟨t, behind, kind, hsplit, -, hkind, rfl⟩ := declaredType_eq_ok_iff.1 hd
      cases hsplit
      exact ⟨kind, others.value, hkind, rfl⟩

/-- What is declared in a file that is read. -/
theorem exists_typeKind_of_isDeclared {file text path : String} {ts : Tokens} {f : File}
    {ds : List Declaration} {name : Token} (hts : tokenize text = .ok ts)
    (h : parseFile file text path = .ok f) (hplace : IsDeclared path ts.list ds name definition) :
    ∃ kind more, typeKind (f.scope path) definition = .ok kind ∧
      f.declarations = ds ++ ⟨⟨name.text, kind.value⟩, name.pos⟩ :: more := by
  obtain ⟨_, c, references, rest, hts', hread, rfl⟩ := parseFile_eq_ok.1 h
  obtain rfl : _ = ts := Except.ok.inj (hts'.symm.trans hts)
  rw [contents_eq] at hread
  obtain ⟨top, _, htop, hbelow, heq⟩ := bind_eq_ok.1 hread
  obtain ⟨all, hall, rfl⟩ := bind_pure_eq_ok.1 hbelow
  cases heq
  cases hplace with
  | @single kw hkw hname h =>
    obtain ⟨_, _, htop', hreaches⟩ := h
    cases htop.symm.trans htop'
    exact exists_typeKind_of_reaches hreaches (round_single hkw hname _) hall
  | grouped hname h =>
    obtain ⟨_, _, htop', hreaches⟩ := h
    cases htop.symm.trans htop'
    exact exists_typeKind_of_reaches hreaches (round_grouped hname _) hall

/-- **How an array type is read** in a file, with respect to one of its definitions and to what is
declared there. -/
structure IsArrayRead (scope : Scope) (definition : List Token) (kind : ObjectKind)
    (length us : List Token) (elem : Parsed GoType) : Prop where
  /-- Wherever it is read, it is an array with this length. -/
  read : typeExpr scope us = .ok { elem with value := .array (lengthText length) elem.value }
  /-- A name is declared to be an array, unless the length goes on behind a name and there is no sign of
  an alias. -/
  declared : behindAssign definition = us →
    kind = if nextKind definition ≠ some .assign ∧ goesOnBehindName length = true
      then .unsupported genericReason
      else .type (.array (lengthText length) elem.value) (nextKind definition == some .assign)
  /-- Inside of what is declared the array occurs in the declared type. -/
  inside : ∀ type isAlias, kind = .type type isAlias → scope.Places (behindAssign definition) us →
    type.Has (.array (lengthText length) elem.value)
  /-- The text of the length is cut into its tokens just if each of them stands before the next one. -/
  cut : split (lengthText length).toList = (lengthPieces length, []) ↔ Stand (lengthPieces length) []
  /-- They do if none sticks to the first character of the next one. -/
  apart : ((length.map Token.word).IsChain fun w w' =>
    ∀ c ∈ w'.text.toList.head?, w.piece.sticksTo c = false) → Stand (lengthPieces length) []
  /-- Then the text has the tokens that were written, and a line end where one is due. -/
  back : Stand (lengthPieces length) [] → ∃ ts, tokenize (lengthText length) = .ok ts ∧
    ts.list.map Token.word =
      length.map Token.word ++ closing (endsBehind false (length.map Token.word))

/-- **Array types in a file.** Wherever an array type stands in it, an array is read if the elements can
be read, and what is kept of its length is the text of its tokens in a row. Three dots are refused
instead, however they are written. -/
theorem parseFile_arrays {file text path : String} {ts : Tokens} {f : File} {ds : List Declaration}
    {name : Token} (hts : tokenize text = .ok ts) (h : parseFile file text path = .ok f)
    (hplace : IsDeclared path ts.list ds name definition) :
    ∃ kind more, f.declarations = ds ++ ⟨⟨name.text, kind⟩, name.pos⟩ :: more ∧
      ∀ us length behind, us <:+ ts.list → ArrayAt length behind us →
        (lengthText length = "..." → typeExpr (f.scope path) us = wanted .arrayLength behind) ∧
        (lengthText length ≠ "..." → ∀ elem, typeExpr (f.scope path) behind = .ok elem →
          IsArrayRead (f.scope path) definition kind length us elem) := by
  obtain ⟨kind, more, hkind, hdeclarations⟩ := exists_typeKind_of_isDeclared hts h hplace
  refine ⟨kind.value, more, hdeclarations, fun us length behind hus harray => ?_⟩
  have hlexed : ∀ w ∈ length.map Token.word, w.IsLexed := by
    obtain @⟨opening, closing, -, -, -⟩ := harray
    exact List.forall_mem_map.2 fun t ht => isLexed_of_tokenize hts (hus.subset (by simp [ht]))
  have htext : lengthText length ≠ "" := by
    obtain @⟨opening, closing, -, ⟨hne, -⟩, -⟩ := harray
    obtain ⟨t, others, rfl⟩ := List.exists_cons_of_ne_nil hne
    intro hempty
    have hnil := congrArg String.toList hempty
    rw [lengthText, List.map_cons, String.join_cons, String.toList_append] at hnil
    exact (hlexed t.word (by simp)).text_ne_nil (List.append_eq_nil_iff.1 hnil).1
  refine ⟨fun hdots => ?_, fun hdots elem helem => ?_⟩
  · rw [typeExpr_of_arrayAt harray htext, if_pos hdots]
  · refine ⟨?_, ?_, ?_, split_lengthText length, stand_map_piece hlexed,
      tokenize_lengthText hts harray hus⟩
    · rw [typeExpr_of_arrayAt harray htext, if_neg hdots]
      exact bind_eq_ok.2 ⟨elem, _, helem, rfl, by simp⟩
    · rintro rfl
      exact typeKind_of_arrayAt harray ⟨htext, hdots⟩ helem hkind
    · intro type isAlias htype hinside
      obtain ⟨elem', helem', hhas⟩ := has_array_of_places harray htext hkind htype hinside
      cases helem.symm.trans helem'
      exact hhas

/-! ### Three grids -/

/-- Whether a text declares an array of numbers right below its header, with a length that is kept as
`written`. The length goes on behind a name or not, and comes back from its text or not. -/
def declaresGrid (text written : String) (goesOn comesBack : Bool) : Bool :=
  (tokenize text).toOption.any fun ts =>
    (parseFile "grid.go" text "m/grid").toOption.any fun f =>
      (header ts.list).toOption.any fun top =>
        match top.rest with
        | kw :: name :: opening :: tokens =>
          decide (kw.kind = .keyword .typeKw ∧ name.kind = .identifier ∧ opening.kind = .leftBracket) &&
            (lengthTokens 0 tokens).any fun found =>
              decide (found.1 ≠ [] ∧ openBehind 0 (found.1.map Token.kind) = some 0 ∧
                lengthText found.1 = written ∧ goesOnBehindName found.1 = goesOn) &&
              ((typeExpr (f.scope "m/grid") found.2).toOption.any fun elem =>
                match elem.value with
                | .basic n => n = "int"
                | _ => false) &&
              (tokenize written).toOption.any fun ts' =>
                decide (ts'.list.map Token.word = found.1.map Token.word ++
                  closing (endsBehind false (found.1.map Token.word))) == comesBack
        | _ => false

theorem exists_grid {text written : String} {goesOn comesBack : Bool}
    (h : declaresGrid text written goesOn comesBack = true) :
    ∃ ts f name definition length behind elem ts', tokenize text = .ok ts ∧
      parseFile "grid.go" text "m/grid" = .ok f ∧
      IsDeclared "m/grid" ts.list [] name definition ∧ definition <:+ ts.list ∧
      nextKind definition ≠ some .assign ∧ ArrayAt length behind definition ∧
      lengthText length = written ∧ goesOnBehindName length = goesOn ∧
      typeExpr (f.scope "m/grid") behind = .ok elem ∧ elem.value = .basic "int" ∧
      tokenize written = .ok ts' ∧ (comesBack = true ↔ ts'.list.map Token.word =
        length.map Token.word ++ closing (endsBehind false (length.map Token.word))) := by
  obtain ⟨ts, hts, hcheck⟩ := exists_ok_of_any h
  obtain ⟨f, hf, hcheck⟩ := exists_ok_of_any hcheck
  obtain ⟨top, htop, hcheck⟩ := exists_ok_of_any hcheck
  split at hcheck
  next kw name opening tokens hrest =>
    rw [Bool.and_eq_true, decide_eq_true_eq] at hcheck
    obtain ⟨⟨hkw, hname, hopening⟩, hlength⟩ := hcheck
    obtain ⟨⟨length, behind⟩, hfound, hlength⟩ := (Option.any_eq_true _ _).1 hlength
    rw [Bool.and_eq_true, Bool.and_eq_true, decide_eq_true_eq] at hlength
    obtain ⟨⟨⟨hne, hbalanced, hwritten, hgoes⟩, helem⟩, hback⟩ := hlength
    obtain ⟨elem, helem, hint⟩ := exists_ok_of_any helem
    obtain ⟨ts', hts', hback⟩ := exists_ok_of_any hback
    obtain ⟨closing, hclosing, rfl, -⟩ := lengthTokens_again hfound
    have hplace : IsPlace "m/grid" ts.list false []
        (kw :: name :: opening :: (length ++ closing :: behind)) :=
      ⟨top, [], htop, hrest ▸ .here⟩
    obtain ⟨above, habove, -⟩ := (header_again htop).2
    refine ⟨ts, f, name, _, length, behind, elem, ts', hts, hf, .single hkw hname hplace,
      ⟨above ++ [kw, name], ?_⟩, by simp [nextKind, hopening],
      .mk hopening ⟨hne, hbalanced⟩ hclosing, hwritten, hgoes, helem, ?_, hts', ?_⟩
    · rw [habove, hrest]
      simp
    · split at hint
      next n hn => rw [hn, of_decide_eq_true hint]
      next => cases hint
    · rw [← eq_of_beq hback, decide_eq_true_eq]
  next => cases hcheck

/-- A grid whose length begins with a number. -/
def doubledText : String :=
  "package grid\ntype Grid [2 * N]int\n"

/-- It is declared as an array with this length. -/
theorem parseFile_arrays_doubled : ∃ ts f name definition length behind elem kind more,
    tokenize doubledText = .ok ts ∧ parseFile "grid.go" doubledText "m/grid" = .ok f ∧
      IsDeclared "m/grid" ts.list [] name definition ∧ ArrayAt length behind definition ∧
      f.declarations = [] ++ ⟨⟨name.text, kind⟩, name.pos⟩ :: more ∧
      IsArrayRead (f.scope "m/grid") definition kind length definition elem ∧
      kind = .type (.array "2*N" (.basic "int")) false := by
  have hchars : tokenize doubledText = _ := tokenize_ofList _
  have hcheck : declaresGrid doubledText "2*N" false true = true := by
    rw [declaresGrid, hchars, toOption_parseFile, doubledText, String.toList_ofList]
    decide +kernel
  obtain ⟨ts, f, name, definition, length, behind, elem, -, hts, hf, hplace, hsuffix, hassign, harray,
    hwritten, hgoes, helem, hint, -⟩ := exists_grid hcheck
  obtain ⟨kind, more, hdeclarations, hread⟩ := parseFile_arrays hts hf hplace
  have harrayRead := (hread definition length behind hsuffix harray).2 (by simp [hwritten]) elem helem
  refine ⟨ts, f, name, definition, length, behind, elem, kind, more, hts, hf, hplace, harray,
    hdeclarations, harrayRead, ?_⟩
  have hkind := harrayRead.declared (if_neg hassign)
  rwa [if_neg (by simp [hgoes]), hwritten, hint, beq_eq_false_iff_ne.2 hassign] at hkind

/-- A grid whose length goes on behind a name. -/
def marginText : String :=
  "package grid\ntype Grid [N + 1]int\n"

/-- A grid whose length has a minus in front of a negative number. -/
def minusText : String :=
  "package grid\ntype Grid [1 - -1]int\n"

/-- **A length that goes on behind a name is not declared**, and a minus runs on into the next one. -/
theorem not_array_of_grids :
    (∃ ts f name definition length behind elem more, tokenize marginText = .ok ts ∧
      parseFile "grid.go" marginText "m/grid" = .ok f ∧
      IsDeclared "m/grid" ts.list [] name definition ∧ ArrayAt length behind definition ∧
      lengthText length = "N+1" ∧ typeExpr (f.scope "m/grid") behind = .ok elem ∧
      f.declarations = ⟨⟨name.text, .unsupported genericReason⟩, name.pos⟩ :: more) ∧
    ∃ ts f name definition length behind elem ts' more, tokenize minusText = .ok ts ∧
      parseFile "grid.go" minusText "m/grid" = .ok f ∧
      IsDeclared "m/grid" ts.list [] name definition ∧ ArrayAt length behind definition ∧
      lengthText length = "1--1" ∧ typeExpr (f.scope "m/grid") behind = .ok elem ∧
      f.declarations = ⟨⟨name.text, .type (.array "1--1" elem.value) false⟩, name.pos⟩ :: more ∧
      tokenize "1--1" = .ok ts' ∧ ts'.list.map Token.word ≠
        length.map Token.word ++ closing (endsBehind false (length.map Token.word)) := by
  have hchars : tokenize marginText = _ := tokenize_ofList _
  have hchars' : tokenize minusText = _ := tokenize_ofList _
  have hmargin : declaresGrid marginText "N+1" true true = true := by
    rw [declaresGrid, hchars, toOption_parseFile, marginText, String.toList_ofList]
    decide +kernel
  have hminus : declaresGrid minusText "1--1" false false = true := by
    rw [declaresGrid, hchars', toOption_parseFile, minusText, String.toList_ofList]
    decide +kernel
  constructor
  · obtain ⟨ts, f, name, definition, length, behind, elem, -, hts, hf, hplace, -, hassign, harray,
      hwritten, hgoes, helem, -⟩ := exists_grid hmargin
    obtain ⟨kind, more, hkind, hdeclarations⟩ := exists_typeKind_of_isDeclared hts hf hplace
    have hthis : ArrayAt length behind (behindAssign definition) := by
      rwa [behindAssign, if_neg hassign]
    have hvalue := typeKind_of_arrayAt hthis (by simp [hwritten]) helem hkind
    rw [if_pos ⟨hassign, hgoes⟩] at hvalue
    rw [hvalue] at hdeclarations
    exact ⟨ts, f, name, definition, length, behind, elem, more, hts, hf, hplace, harray, hwritten,
      helem, hdeclarations⟩
  · obtain ⟨ts, f, name, definition, length, behind, elem, ts', hts, hf, hplace, -, hassign, harray,
      hwritten, hgoes, helem, -, hts', hback⟩ := exists_grid hminus
    obtain ⟨kind, more, hkind, hdeclarations⟩ := exists_typeKind_of_isDeclared hts hf hplace
    have hthis : ArrayAt length behind (behindAssign definition) := by
      rwa [behindAssign, if_neg hassign]
    have hvalue := typeKind_of_arrayAt hthis (by simp [hwritten]) helem hkind
    rw [if_neg (by simp [hgoes]), hwritten, beq_eq_false_iff_ne.2 hassign] at hvalue
    rw [hvalue] at hdeclarations
    exact ⟨ts, f, name, definition, length, behind, elem, ts', more, hts, hf, hplace, harray, hwritten,
      helem, hdeclarations, hts', fun heq => Bool.false_ne_true (hback.2 heq)⟩

end Syntax

end Multicast
