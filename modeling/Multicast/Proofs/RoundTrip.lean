import Multicast.Proofs.FileReads
import Multicast.Proofs.Header

/-!
# Printing and parsing types

A file that declares an alias of a well-formed type, as the type is printed, is read as that
declaration. The header of the file may be any text that reads as a package clause and imports. A
type of the file's own package is written without a qualifier, a type of another package behind the
alias of an import.

## What is asked of the type, and why

Declared types have to be ones that the file can name: own types that are not hidden by predeclared names,
and types of imports by an alias that no other package has. Array lengths are one token, a number or a
name, since a text of more tokens need not be cut as it was. All the rest is asked of any type that is
written: names for all parameters or for none, three dots in front of a slice, and so on. None of these is
more than reading makes sure of, as to types that came from a file.
-/

namespace Multicast.Syntax

open Source Multicast.Syntax.Parser

/-! ### Aliases of imports -/

/-- A name is the alias of a package: an import of the package is written with it, and no import of
another package goes by that name. -/
structure Alias (imports : List Import) (short : String) (package : PackageId) : Prop where
  word : Kind.identifier.Writes short
  notBlank : short ≠ "_"
  written : ∃ i ∈ imports, i.written = some short ∧ i.package = package
  only : ∀ i ∈ imports, i.localName? = some short → i.package = package

/-- A name that no import of another package goes by. -/
theorem import?_eq_some {imports : List Import} {short : String} {package own : PackageId}
    (hsome : ∃ i ∈ imports, i.localName? = some short)
    (honly : ∀ i ∈ imports, i.localName? = some short → i.package = package) :
    Scope.import? ⟨own, imports⟩ short = some package := by
  obtain ⟨i, hi, hlocal⟩ := hsome
  rw [Scope.import?]
  cases hfound : imports.reverse.find? (·.localName? = some short) with
  | none =>
    have hnone := List.find?_eq_none.1 hfound i (List.mem_reverse.2 hi)
    exact absurd hlocal (by simpa using hnone)
  | some j =>
    have hj := List.find?_some hfound
    have hmem := List.mem_reverse.1 (List.mem_of_find?_eq_some hfound)
    exact congrArg some (honly j hmem (by simpa using hj))

theorem Alias.import? {imports : List Import} {short : String} {package own : PackageId}
    (h : Alias imports short package) : Scope.import? ⟨own, imports⟩ short = some package := by
  have hdot : short ≠ "." := by
    rintro rfl
    exact not_writes_of_dot (by simp) h.word
  obtain ⟨i, hi, hwritten, -⟩ := h.written
  refine import?_eq_some ⟨i, hi, ?_⟩ h.only
  rw [Import.localName?, hwritten]
  split
  next heq => exact absurd (Option.some.inj heq) h.notBlank
  next heq => exact absurd (Option.some.inj heq) hdot
  next heq => exact heq.symm
  next heq => cases heq

/-- The declared types that a file can write: its own ones, unless they are named like predeclared
types, and the ones of packages that it imports under an alias. -/
def Writable (own : PackageId) (imports : List Import) (qualifier : PackageId → String)
    (package : PackageId) (name : String) : Prop :=
  Kind.identifier.Writes name ∧ if package = own then name ∉ predeclared
    else Alias imports (qualifier package) package

/-- The array lengths that are one token. -/
def IsLength (n : String) : Prop :=
  Kind.number.Writes n ∨ Kind.identifier.Writes n

theorem kindOf_of_isLength {n : String} (h : IsLength n) :
    kindOf n = .number ∨ kindOf n = .identifier :=
  h.imp kindOf_eq kindOf_eq

section

variable {own : PackageId} {imports : List Import} {qualifier : PackageId → String}

theorem spelled_of_writable (hown : qualifier own = "") :
    Spelled qualifier (Writable own imports qualifier) IsLength where
  name h := h.1
  qualifier {package name} h := by
    have halias := h.2
    split at halias
    next heq => exact .inl (heq ▸ hown)
    next => exact .inr halias.word
  length h := h.elim (fun h => ⟨_, h⟩) fun h => ⟨_, h⟩

theorem readable_of_writable (hown : qualifier own = "") :
    Readable ⟨own, imports⟩ qualifier id (Writable own imports qualifier) IsLength where
  own {package name} h hq := by
    have halias := h.2
    split at halias
    next heq => exact ⟨halias, heq⟩
    next =>
      have hword := halias.word
      rw [hq] at hword
      exact absurd hword not_writes_empty
  foreign {package name} h hq := by
    have halias := h.2
    split at halias
    next heq => exact absurd (heq ▸ hown) hq
    next => exact halias.import?
  length h := kindOf_of_isLength h

end

/-! ### Declarations that end a file

The declaration stands below the header and in front of the end, so its semicolon may be that of the text. -/

section

variable {scope : Scope} {qualifier : PackageId → String} {settle : PackageId → PackageId}
  {type : GoType}

/-- The line end behind the last declaration may be missing. -/
theorem reads_specEnd (ends : Bool) :
    (specEnd false).Reads (closing ends) (fun _ => True) (· = none) := by
  cases ends with
  | true =>
    refine .peek fun next _ => ?_
    intro tokens rest htokens _
    obtain ⟨t, ts, rfl, -, hts⟩ := cons_of_map_word htokens
    obtain rfl := List.map_eq_nil_iff.1 hts
    exact ⟨(), [], rfl, trivial⟩
  | false =>
    refine .peek fun next hnext => ?_
    subst hnext
    exact .pure trivial

/-- **An alias declaration at the end of a file is read.** -/
theorem reads_declarations (htype : ReadsBack qualifier settle (typeExpr scope) type)
    (name : String) (ends : Bool) {n : Nat} (hn : 1 < n) :
    (declarations scope n).Reads
      (⟨.keyword .typeKw, "type"⟩ :: ⟨.identifier, name⟩ :: ⟨.assign, "="⟩ ::
        (type.words qualifier ++ closing ends))
      (fun ds => ∃ pos, ds = [⟨⟨name, .type (type.settled settle) true⟩, pos⟩]) (· = none) := by
  obtain ⟨n, rfl⟩ := Nat.exists_eq_add_of_le' hn
  have hspec : (typeSpec scope false).Reads
      (⟨.identifier, name⟩ :: ⟨.assign, "="⟩ :: (type.words qualifier ++ closing ends))
      (fun d => ∃ pos, d = ⟨⟨name, .type (type.settled settle) true⟩, pos⟩) (· = none) := by
    refine .expect rfl fun declared hdeclared => ?_
    have hname : declared.text = name := congrArg Word.text hdeclared
    -- the line ends where the type may end: at a line end, or with the file
    have hends (next : Option Kind) (hnext : next = none) :
        endsType (leading (closing ends) next) = true := by
      cases ends with
      | true => rfl
      | false => subst hnext; rfl
    have hkind : (typeKind scope).Reads (⟨.assign, "="⟩ :: type.words qualifier)
        (· = .type (type.settled settle) true) (endsType ·) := by
      have hreports : (typeExpr scope).Reports (type.words qualifier)
          (fun t _ => t = type.settled settle) (endsType ·) := htype
      refine (reports_typeKind hreports (.inl rfl)).imp ?_ fun _ h => h
      rintro _ _ ⟨_, rfl, rfl⟩
      rfl
    refine hkind.bind hends fun kind hvalue => ?_
    refine (reads_specEnd ends).map fun _ _ => .pure ⟨declared.pos, ?_⟩
    rw [hname, hvalue]
  -- behind the only declaration there is nothing
  have hnone : (declarations scope (n + 1)).Reads [] (· = []) (· = none) := by
    refine .peek fun next hnext => ?_
    subst hnext
    exact .pure rfl
  have hgroup : (group (typeSpec scope)).Reads
      (⟨.identifier, name⟩ :: ⟨.assign, "="⟩ :: (type.words qualifier ++ closing ends))
      (fun ds => ∃ pos, ds = [⟨⟨name, .type (type.settled settle) true⟩, pos⟩]) (· = none) := by
    refine .accept_ne (by simp) (hspec.map fun d hd => ?_)
    obtain ⟨pos, rfl⟩ := hd
    exact .pure ⟨pos, rfl⟩
  refine .peek fun next _ => .skip (hgroup.map fun first hfirst => hnone.map fun others hothers => ?_)
  obtain ⟨pos, rfl⟩ := hfirst
  subst hothers
  exact .pure ⟨pos, rfl⟩

end

/-! ### The round trip -/

deriving instance DecidableEq for Parsed

/-- The declaration of an alias, as pieces. -/
def aliasPieces (name : String) (type : List Piece) : List Piece :=
  [Piece.key .typeKw, .space] ++ ([Piece.name name, .space] ++ ([Piece.assign, .space] ++ type))

theorem stable_aliasPieces {name : String} (hname : Kind.identifier.Writes name)
    {type : List Piece} (htype : Stable type) : Stable (aliasPieces name type) := by
  have hspace : Divided (textOf [.space]) := divided_cons (by decide)
  have hassign : Free [.assign, .space] := by
    refine ⟨by simp [Piece.isInline], fun rest => ⟨?_, free_space.stand rest⟩⟩
    have hsign : Kind.assign.Writes "=" := by decide
    exact (stand_before_break hsign (d := ' ') (by decide) rest).1
  exact ((stable_key _).append_free free_space hspace).append_stable
    (((stable_name hname).append_free free_space hspace).append_stable
      (hassign.append_stable htype))

/-- **Printing and parsing are inverse.** In a file with any header, a declaration of an alias is
read as an alias of the very type that was printed, if that type is well-formed: its declared types
can be written in the file, its array lengths are single tokens, and the rest of its names and
literals are words of the language. -/
theorem parseFile_render {file head path package name : String} {imports : List Import}
    {qualifier : PackageId → String} {type : GoType}
    (hhead : readText header file head = .ok ⟨(package, imports), [], []⟩)
    (hname : Kind.identifier.Writes name) (hown : qualifier ⟨path, package⟩ = "")
    (htype : type.WellFormed (Writable ⟨path, package⟩ imports qualifier) IsLength) :
    ∃ pos references,
      parseFile file (head ++ "\n" ++ ("type " ++ name ++ " = " ++ type.render qualifier)) path =
        .ok ⟨file, package, imports, [⟨⟨name, .type type true⟩, pos⟩], references⟩ := by
  have hsettled : type.settled id = type := GoType.relocate_eq_self fun _ _ _ => rfl
  -- the text is cut into its pieces, and these are the words behind the header
  have hstable := stable_aliasPieces hname (htype.stable (spelled_of_writable hown))
  have htext : "type " ++ name ++ " = " ++ type.render qualifier =
      String.ofList (textOf (aliasPieces name (type.pieces qualifier))) := by
    rw [← String.toList_inj]
    simp [aliasPieces, textOf, GoType.toList_render, Keyword.text, Piece.text]
  obtain ⟨ts, hts, hread⟩ : ∃ ts, tokenize head = .ok ts ∧
      header ts.list = .ok ⟨(package, imports), [], []⟩ := by
    rw [readText] at hhead
    split at hhead
    next => cases hhead
    next ts hts =>
      refine ⟨ts, hts, ?_⟩
      split at hhead
      next => cases hhead
      next parsed hparsed => rw [hparsed, Except.ok.inj hhead]
  obtain ⟨more, stop, htokens, hwords⟩ := tokenize_below hts (hstable.stand [] (by simp [Clear]))
    fun p hp => Piece.isWhole_of_isInline (hstable.inline p hp)
  obtain ⟨ends, hends⟩ : ∃ ends, more.map Token.word =
      ⟨.keyword .typeKw, "type"⟩ :: ⟨.identifier, name⟩ :: ⟨.assign, "="⟩ ::
        (type.words qualifier ++ closing ends) := by
    refine ⟨endsAfter false (aliasPieces name (type.pieces qualifier)), ?_⟩
    rw [hwords, wordsOfText, wordsOf_inline hstable.inline]
    simp [aliasPieces, lexemes, Keyword.text]
  -- so they are read as the declaration, and the header as it is read alone
  have htypeExpr : ReadsBack qualifier id (typeExpr ⟨⟨path, package⟩, imports⟩) type :=
    .bounded fun n hn => reads_typeWithin (readable_of_writable hown) htype hn
  have hbody : (Parser.bounded (declarations ⟨⟨path, package⟩, imports⟩)).Reads _ _ (· = none) :=
    .bounded fun n hn => reads_declarations htypeExpr name ends (by simp at hn; omega)
  obtain ⟨value, references, hvalue, pos, rfl⟩ := hbody more [] hends rfl
  have hnext : nextKind more = some (.keyword .typeKw) := by
    rw [← List.append_nil more, nextKind_append hends]
    rfl
  rw [List.append_nil] at hvalue
  have hcontents :=
    contents_of_header (header_append hnext (finished_of_tokenize hts) hread) hvalue
  refine ⟨pos, references, ?_⟩
  rw [htext, parseFile, readText, htokens]
  dsimp only
  rw [hcontents, hsettled]
  rfl

/-- A function type over an own type and an imported one, with a slice behind three dots. -/
def handlerType : GoType :=
  .func ⟨[⟨"state", .pointer (.named ⟨"example.com/app", "app"⟩ "State")⟩,
    ⟨"events", .slice (.named ⟨"example.com/events", "events"⟩ "Event")⟩],
    [⟨"", .array "8" (.basic "byte")⟩, ⟨"", .basic "error"⟩], true⟩

/-- What stands in front of the type names of `handlerType`. -/
def handlerQualifier (package : PackageId) : String :=
  if package.name = "app" then "" else "ext"

theorem parseFile_render_handlerType :
    ∃ pos references,
      parseFile "handler.go" ("package app\nimport ext \"example.com/events\"" ++ "\n" ++
          ("type " ++ "Handler" ++ " = " ++ handlerType.render handlerQualifier))
          "example.com/app" =
        .ok ⟨"handler.go", "app", [⟨some "ext", ⟨"example.com/events", "events"⟩⟩],
          [⟨⟨"Handler", .type handlerType true⟩, pos⟩], references⟩ := by
  refine parseFile_render (by decide +kernel) (by decide +kernel) rfl ?_
  have hstate : Writable ⟨"example.com/app", "app"⟩
      [⟨some "ext", ⟨"example.com/events", "events"⟩⟩] handlerQualifier
      ⟨"example.com/app", "app"⟩ "State" := ⟨by decide, show _ ∉ predeclared by decide⟩
  have hevent : Writable ⟨"example.com/app", "app"⟩
      [⟨some "ext", ⟨"example.com/events", "events"⟩⟩] handlerQualifier
      ⟨"example.com/events", "events"⟩ "Event" :=
    ⟨by decide, by decide, by decide, ⟨_, List.mem_singleton.2 rfl, rfl, rfl⟩,
      by simp⟩
  have hlength : IsLength "8" := .inl (by decide)
  rw [handlerType, GoType.wellFormed_func]
  refine ⟨⟨.inr ?_, .inl (by simp), fun _ => ⟨_, rfl, rfl⟩⟩, ?_⟩
  · simp only [List.forall_mem_cons]
    decide
  · simpa [Signature.types] using ⟨hstate, hevent, ⟨hlength, by decide⟩, by decide⟩

end Multicast.Syntax
