import Multicast.Proofs.Words
import Multicast.Types.Rendering

/-!
# Types as pieces

`GoType.pieces` writes a type like `GoType.render`, but as the pieces of the text and not as the
text itself. `toList_render` says that it is the same text, whatever the type. What depends on the
type is whether the text is cut into these pieces again: it is if the type is made of words of the
language, and if no name is continued behind it (`GoType.WellFormed.stable`).

## Why a second printer

What is printed is a text, and to speak of how it is cut one needs to know what it was put together from.
So there is a printer that returns pieces, with the same recursion, and an equation that makes it a way of
speaking about the first one. Nothing is proved about the pieces of a type that is not, by this equation,
about its text.
-/

namespace Multicast

open Source

/-! ### Names for pieces -/

namespace Source.Piece

/-- A name, as a piece. -/
abbrev name (n : String) : Piece := .lexeme .identifier n.toList

/-- A keyword, as a piece. -/
abbrev key (k : Keyword) : Piece := .lexeme (.keyword k) k.text.toList

abbrev space : Piece := .blank ' '
abbrev star : Piece := .lexeme .star ['*']
abbrev arrow : Piece := .lexeme .arrow ['<', '-']
abbrev dots : Piece := .lexeme .ellipsis ['.', '.', '.']
abbrev dot : Piece := .lexeme .dot ['.']
abbrev comma : Piece := .lexeme .comma [',']
abbrev semicolon : Piece := .lexeme .semicolon [';']
abbrev assign : Piece := .lexeme .assign ['=']
abbrev leftParen : Piece := .lexeme .leftParen ['(']
abbrev rightParen : Piece := .lexeme .rightParen [')']
abbrev leftBracket : Piece := .lexeme .leftBracket ['[']
abbrev rightBracket : Piece := .lexeme .rightBracket [']']
abbrev leftBrace : Piece := .lexeme .leftBrace ['\x7b']
abbrev rightBrace : Piece := .lexeme .rightBrace ['\x7d']

end Source.Piece

/-- The kind of the token that a text begins with. -/
def kindOf (text : String) : Kind :=
  match Piece.first text.toList with
  | some (.lexeme kind _, _) => kind
  | _ => .operator

theorem kindOf_eq {kind : Kind} {text : String} (h : kind.Writes text) : kindOf text = kind := by
  have hfirst : Piece.first text.toList = some (.lexeme kind text.toList, []) := by
    simpa [Kind.Writes, Piece.Stands] using h
  rw [kindOf, hfirst]

/-- Pieces with others between them. -/
def joined (separator : List Piece) (pieces : List (List Piece)) : List Piece :=
  separator.intercalate pieces

/-! ### Writing types as pieces

Each way of putting texts together has its own function on pieces: lists in parentheses, bodies in braces,
parameters, fields, channels, results. The lemmas of later files are about these functions, one by one. -/

/-- A name behind its qualifier, as pieces. -/
def qualifiedPieces (qualifier name : String) : List Piece :=
  if qualifier.isEmpty then [.name name] else [.name qualifier, .dot, .name name]

/-- A parameter or result, given the pieces of its type. -/
def paramPieces (name : String) (type : List Piece) : List Piece :=
  if name.isEmpty then type else .name name :: .space :: type

/-- A field, given the pieces of its type. -/
def fieldPieces (name : Option String) (type : List Piece) (tag : Option String) : List Piece :=
  (name.elim [] fun n => [Piece.name n, .space]) ++ type ++
    (tag.elim [] fun t => [Piece.space, .lexeme .string t.toList])

/-- A channel type, given the pieces of its element type. -/
def chanPieces (direction : Direction) (nested : Bool) (elem : List Piece) : List Piece :=
  match direction with
  | .both =>
    if nested then .key .chanKw :: .space :: .leftParen :: elem ++ [.rightParen]
    else .key .chanKw :: .space :: elem
  | .send => .key .chanKw :: .arrow :: .space :: elem
  | .receive => .arrow :: .key .chanKw :: .space :: elem

/-- Parameters in their parentheses, given the pieces of each. -/
def listPieces (params : List (List Piece)) : List Piece :=
  .leftParen :: joined [.comma, .space] params ++ [.rightParen]

/-- Elements between braces, given the pieces of each. -/
def bodyPieces (elements : List (List Piece)) : List Piece :=
  .leftBrace :: joined [.semicolon, .space] elements ++ [.rightBrace]

/-- The results of a function behind its parameters, given the pieces of each. A single result
without a name needs no parentheses. -/
def resultPieces (results : List Param) (pieces : List (List Piece)) : List Piece :=
  match results, pieces with
  | [⟨"", _⟩], [type] => .space :: type
  | [], _ => []
  | _, pieces => .space :: listPieces pieces

section

variable (qualifier : PackageId → String)

mutual

/-- Writes a type. -/
def GoType.pieces : GoType → List Piece
  | .basic name => [.name name]
  | .named package name => qualifiedPieces (qualifier package) name
  | .pointer elem => .star :: elem.pieces
  | .slice elem => .leftBracket :: .rightBracket :: elem.pieces
  | .array length elem =>
    .leftBracket :: .lexeme (kindOf length) length.toList :: .rightBracket :: elem.pieces
  | .map key value =>
    .key .mapKw :: .leftBracket :: key.pieces ++ .rightBracket :: value.pieces
  | .chan direction elem => chanPieces direction elem.isReceiver elem.pieces
  | .func signature => .key .funcKw :: signature.pieces
  | .interface ⟨methods, embeds⟩ =>
    .key .interfaceKw :: bodyPieces (Method.piecesAll methods ++ GoType.piecesAll embeds)
  | .struct fields => .key .structKw :: bodyPieces (Field.piecesAll fields)

/-- Writes types one by one. -/
def GoType.piecesAll : List GoType → List (List Piece)
  | [] => []
  | type :: types => type.pieces :: GoType.piecesAll types

/-- Writes parameters and results. -/
def Signature.pieces : Signature → List Piece
  | ⟨params, results, variadic⟩ =>
    listPieces (Param.piecesAll variadic params) ++
      resultPieces results (Param.piecesAll false results)

/-- Writes parameters one by one. -/
def Param.piecesAll (variadic : Bool) : List Param → List (List Piece)
  | [] => []
  | [⟨name, .slice elem⟩] =>
    [paramPieces name
      ((if variadic then [.dots] else [.leftBracket, .rightBracket]) ++ elem.pieces)]
  | ⟨name, type⟩ :: params => paramPieces name type.pieces :: Param.piecesAll variadic params

/-- Writes methods one by one. -/
def Method.piecesAll : List Method → List (List Piece)
  | [] => []
  | ⟨name, signature⟩ :: methods => (.name name :: signature.pieces) :: Method.piecesAll methods

/-- Writes fields one by one. -/
def Field.piecesAll : List Field → List (List Piece)
  | [] => []
  | ⟨name, type, tag⟩ :: fields =>
    fieldPieces name type.pieces tag :: Field.piecesAll fields

end

end

/-! ### The text of the pieces -/

/-- The results of a function behind its parameters, given the text of each. -/
def resultText (results : List Param) (texts : List String) : String :=
  match results, texts with
  | [⟨"", _⟩], [text] => " " ++ text
  | [], _ => ""
  | _, texts => " (" ++ ", ".intercalate texts ++ ")"

section

variable (qualifier : PackageId → String)

/-- Parameters as texts, one by one. -/
def Param.renderAll (variadic : Bool) (params : List Param) : List String :=
  Id.run (Param.renderAllM (fun package => pure (qualifier package)) variadic params)

/-- Parameters and results as a text. -/
def Signature.render (signature : Signature) : String :=
  Id.run (signature.renderM fun package => pure (qualifier package))

/-- Methods as texts, one by one. -/
def Method.renderAll (methods : List Method) : List String :=
  Id.run (Method.renderAllM (fun package => pure (qualifier package)) methods)

/-- Types as texts, one by one. -/
def GoType.renderAll (types : List GoType) : List String :=
  Id.run (GoType.renderAllM (fun package => pure (qualifier package)) types)

/-- Fields as texts, one by one. -/
def Field.renderAll (fields : List Field) : List String :=
  Id.run (Field.renderAllM (fun package => pure (qualifier package)) fields)

theorem textOf_joined (separator : List Piece) (pieces : List (List Piece)) :
    textOf (joined separator pieces) = (textOf separator).intercalate (pieces.map textOf) := by
  induction pieces with
  | nil => rfl
  | cons p pieces ih =>
    cases pieces with
    | nil => simp [joined]
    | cons r pieces =>
      simp only [joined, List.intercalate_cons_cons, List.map_cons, textOf,
        List.flatMap_append] at ih ⊢
      rw [ih]

theorem toList_qualify (qualifier name : String) :
    (qualify qualifier name).toList = textOf (qualifiedPieces qualifier name) := by
  unfold qualify qualifiedPieces
  split <;> simp

theorem toList_paramText {name type : String} {ps : List Piece} (h : type.toList = textOf ps) :
    (paramText name type).toList = textOf (paramPieces name ps) := by
  unfold paramText paramPieces
  split <;> simp [h]

theorem toList_fieldText {type : String} {ps : List Piece} (h : type.toList = textOf ps)
    (name tag : Option String) :
    (fieldText name type tag).toList = textOf (fieldPieces name ps tag) := by
  cases name <;> cases tag <;> simp [fieldText, fieldPieces, h]

theorem toList_chanText {elem : String} {ps : List Piece} (h : elem.toList = textOf ps)
    (direction : Direction) (nested : Bool) :
    (chanText direction nested elem).toList = textOf (chanPieces direction nested ps) := by
  cases direction <;> cases nested <;> simp [chanText, chanPieces, h, Keyword.text]

theorem toList_list {texts : List String} {ps : List (List Piece)}
    (h : texts.map String.toList = ps.map textOf) :
    ("(" ++ ", ".intercalate texts ++ ")").toList = textOf (listPieces ps) := by
  have hjoined := textOf_joined [.comma, .space] ps
  rw [← h] at hjoined
  simp [listPieces, List.flatMap_append, hjoined]

theorem toList_body {texts : List String} {ps : List (List Piece)}
    (h : texts.map String.toList = ps.map textOf) :
    (braces ("; ".intercalate texts)).toList = textOf (bodyPieces ps) := by
  have hjoined := textOf_joined [.semicolon, .space] ps
  rw [← h] at hjoined
  simp [braces, bodyPieces, List.flatMap_append, hjoined]

/-- A parameter with others behind it is written like any other. -/
theorem Param.renderAll_cons (variadic : Bool) (name : String) (type : GoType) (param : Param)
    (params : List Param) :
    Param.renderAll qualifier variadic (⟨name, type⟩ :: param :: params) =
      paramText name (type.render qualifier) ::
        Param.renderAll qualifier variadic (param :: params) := by
  cases type <;> rfl

theorem Param.piecesAll_cons (variadic : Bool) (name : String) (type : GoType) (param : Param)
    (params : List Param) :
    Param.piecesAll qualifier variadic (⟨name, type⟩ :: param :: params) =
      paramPieces name (type.pieces qualifier) ::
        Param.piecesAll qualifier variadic (param :: params) := by
  cases type <;> rfl

theorem toList_resultText {results : List Param} {texts : List String} {ps : List (List Piece)}
    (h : texts.map String.toList = ps.map textOf) :
    (resultText results texts).toList = textOf (resultPieces results ps) := by
  have hlist := toList_list h
  have hparens : (" (" ++ ", ".intercalate texts ++ ")").toList =
      textOf (.space :: listPieces ps) := by
    simpa using hlist
  unfold resultText resultPieces
  split
  next type text =>
    obtain ⟨ps', rfl⟩ : ∃ ps', ps = [ps'] := by
      rw [← List.length_eq_one_iff]
      simpa using (congrArg List.length h).symm
    simpa using h
  next => rfl
  next hnil hone =>
    split
    next type ps' =>
      obtain ⟨text, rfl⟩ : ∃ text, texts = [text] := by
        rw [← List.length_eq_one_iff]
        simpa using congrArg List.length h
      exact (hone type text rfl rfl).elim
    next => exact (hnil rfl).elim
    next => exact hparens

mutual

/-- **Pieces and text agree**: the text of a type is the text of its pieces. -/
theorem GoType.toList_render (type : GoType) :
    (type.render qualifier).toList = textOf (type.pieces qualifier) := by
  match type with
  | .basic name => simp [GoType.render, GoType.renderM, GoType.pieces]
  | .named package name => exact toList_qualify _ _
  | .pointer elem =>
    have ih := elem.toList_render
    have htext : (GoType.pointer elem).render qualifier = "*" ++ elem.render qualifier := rfl
    simp [htext, GoType.pieces, ih]
  | .slice elem =>
    have ih := elem.toList_render
    have htext : (GoType.slice elem).render qualifier = "[]" ++ elem.render qualifier := rfl
    simp [htext, GoType.pieces, ih]
  | .array length elem =>
    have ih := elem.toList_render
    have htext : (GoType.array length elem).render qualifier =
      "[" ++ length ++ "]" ++ elem.render qualifier := rfl
    simp [htext, GoType.pieces, ih]
  | .map key value =>
    have ihKey := key.toList_render
    have ihValue := value.toList_render
    have htext : (GoType.map key value).render qualifier =
      "map[" ++ key.render qualifier ++ "]" ++ value.render qualifier := rfl
    simp [htext, GoType.pieces, Keyword.text, ihKey, ihValue]
  | .chan direction elem =>
    exact toList_chanText elem.toList_render direction elem.isReceiver
  | .func signature =>
    have ih := signature.toList_render
    have htext : (GoType.func signature).render qualifier =
      "func" ++ signature.render qualifier := rfl
    simp [htext, GoType.pieces, Keyword.text, ih]
  | .interface ⟨methods, embeds⟩ =>
    have ihMethods := Method.toList_renderAll methods
    have ihEmbeds := GoType.toList_renderAll embeds
    have htext : (GoType.interface ⟨methods, embeds⟩).render qualifier =
      "interface" ++ braces ("; ".intercalate
        (Method.renderAll qualifier methods ++ GoType.renderAll qualifier embeds)) := rfl
    rw [htext, String.toList_append, toList_body (by rw [List.map_append, ihMethods, ihEmbeds,
      ← List.map_append])]
    simp [GoType.pieces, Keyword.text]
  | .struct fields =>
    have ih := Field.toList_renderAll fields
    have htext : (GoType.struct fields).render qualifier =
      "struct" ++ braces ("; ".intercalate (Field.renderAll qualifier fields)) := rfl
    rw [htext, String.toList_append, toList_body ih]
    simp [GoType.pieces, Keyword.text]

theorem GoType.toList_renderAll (types : List GoType) :
    (GoType.renderAll qualifier types).map String.toList =
      (GoType.piecesAll qualifier types).map textOf := by
  match types with
  | [] => rfl
  | type :: types =>
    have ih := GoType.toList_renderAll types
    have htext : GoType.renderAll qualifier (type :: types) =
      type.render qualifier :: GoType.renderAll qualifier types := rfl
    simp only [htext, GoType.piecesAll, List.map_cons, type.toList_render, ih]

theorem Signature.toList_render (signature : Signature) :
    (signature.render qualifier).toList = textOf (signature.pieces qualifier) := by
  match signature with
  | ⟨params, results, variadic⟩ =>
    have ihParams := Param.toList_renderAll variadic params
    have ihResults := Param.toList_renderAll false results
    have htext : Signature.render qualifier ⟨params, results, variadic⟩ =
      "(" ++ ", ".intercalate (Param.renderAll qualifier variadic params) ++ ")" ++
        resultText results (Param.renderAll qualifier false results) := rfl
    rw [htext, String.toList_append, toList_list ihParams, toList_resultText ihResults]
    exact List.flatMap_append.symm

theorem Param.toList_renderAll (variadic : Bool) (params : List Param) :
    (Param.renderAll qualifier variadic params).map String.toList =
      (Param.piecesAll qualifier variadic params).map textOf := by
  match params with
  | [] => rfl
  | [⟨name, type⟩] =>
    have ih := type.toList_render
    cases type with
    | slice elem =>
      have helem : (elem.render qualifier).toList = textOf (elem.pieces qualifier) := by
        have htext : (GoType.slice elem).render qualifier = "[]" ++ elem.render qualifier := rfl
        simpa [htext, GoType.pieces] using ih
      have htext : Param.renderAll qualifier variadic [⟨name, .slice elem⟩] =
        [paramText name ((if variadic then "..." else "[]") ++ elem.render qualifier)] := rfl
      rw [htext, Param.piecesAll, List.map_singleton, List.map_singleton, toList_paramText]
      cases variadic <;> simp [helem]
    | _ => exact congrArg ([·]) (toList_paramText ih)
  | ⟨name, type⟩ :: param :: params =>
    have ih := Param.toList_renderAll variadic (param :: params)
    rw [Param.renderAll_cons, Param.piecesAll_cons, List.map_cons, List.map_cons, ih,
      toList_paramText type.toList_render]

theorem Method.toList_renderAll (methods : List Method) :
    (Method.renderAll qualifier methods).map String.toList =
      (Method.piecesAll qualifier methods).map textOf := by
  match methods with
  | [] => rfl
  | ⟨name, signature⟩ :: methods =>
    have ih := Method.toList_renderAll methods
    have htext : Method.renderAll qualifier (⟨name, signature⟩ :: methods) =
      (name ++ signature.render qualifier) :: Method.renderAll qualifier methods := rfl
    simp [htext, Method.piecesAll, signature.toList_render, ih]

theorem Field.toList_renderAll (fields : List Field) :
    (Field.renderAll qualifier fields).map String.toList =
      (Field.piecesAll qualifier fields).map textOf := by
  match fields with
  | [] => rfl
  | ⟨name, type, tag⟩ :: fields =>
    have ih := Field.toList_renderAll fields
    have htext : Field.renderAll qualifier (⟨name, type, tag⟩ :: fields) =
      fieldText name (type.render qualifier) tag :: Field.renderAll qualifier fields := rfl
    simp only [htext, Field.piecesAll, List.map_cons,
      toList_fieldText type.toList_render, ih]

end

end

end Multicast
