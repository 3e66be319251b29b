import Mathlib.Data.List.Nodup
import Multicast.Proofs.Hooked
import Multicast.Proofs.Lines
import Multicast.Proofs.Planned
import Multicast.Proofs.RoundTrip

/-!
# Forwarded signatures are read back

The generated method takes what the hooked method takes. To say so without a word on how parameters
are written, the destination package is asked: a file in it that imports what the hook imports, and
declares an interface with the method as the generated file declares it, is read, and the only method
of that interface has the types of the hooked one. Declared types are told apart by path and name,
since the package of the interface may be known under one name to itself and under another one to
those that import it.

## What can go wrong, and does not

A type of the destination's own package is written without a qualifier, so its name must not be that of a
predeclared type; a type of another package is written behind the short name of that package, and read
back with the import of that name. Both hold of the types in a loaded package, given that its imports go
by the names that their paths suggest. Array lengths are numbers or names: this is the side condition that
the text cannot be read back without.

The declaration of the interface is made of three lines, and they are pieces that stand one after the
other. From there the result is the round trip of a signature (`reads_signature`), with the packages
settled to those of the destination.
-/

namespace Multicast

open Source Syntax

/-- The lines of a file that declares an interface with the generated method alone. -/
def HookFile.signatureLines (t : HookFile) (name : String) : List String :=
  ["package " ++ t.packageName, ""] ++ HookFile.importLines t.imports ++
    ["type " ++ name ++ " interface \x7b " ++ t.methodName ++ "(" ++
      ", ".intercalate t.declarationArgs ++ ") \x7d"]

/-- A type with its packages told apart by their paths alone. -/
def GoType.byPath (type : GoType) : GoType :=
  type.relocate fun package _ => ⟨package.path, ""⟩

/-! ### The declared types in the destination -/

/-- The declared types that a file can write whose imports have no names in front of them. Types of
its own package must not be named like predeclared ones. -/
def WritableIn (destination : String) (paths : Paths) (package : PackageId) (name : String) : Prop :=
  Kind.identifier.Writes name ∧ if package.path = destination then name ∉ predeclared
    else package.path ∈ paths ∧ package = .ofPath package.path

/-- The package that the file at `destination` means. -/
def settledIn (own package : PackageId) : PackageId :=
  if package.path = own.path then own else package

section

variable {own : PackageId} {paths : Paths}

theorem import?_plainImport (hnames : (paths.map PackageId.guessName).Nodup) {path : String}
    (hpath : path ∈ paths) :
    Scope.import? ⟨own, paths.map plainImport⟩ (PackageId.guessName path) = some (.ofPath path) := by
  refine import?_eq_some ⟨plainImport path, List.mem_map_of_mem hpath, rfl⟩ fun i hi hlocal => ?_
  obtain ⟨other, hother, rfl⟩ := List.mem_map.1 hi
  have heq : PackageId.guessName other = PackageId.guessName path := Option.some.inj hlocal
  exact congrArg PackageId.ofPath (List.inj_on_of_nodup_map hnames hother hpath heq)

variable (hwords : ∀ path ∈ paths, Kind.identifier.Writes (PackageId.guessName path))

include hwords

theorem spelled_of_writableIn (destination : String) :
    Spelled (shortIn destination) (WritableIn destination paths) IsLength where
  name h := h.1
  qualifier {package name} h := by
    obtain ⟨-, h⟩ := h
    rw [shortIn]
    split at h
    next heq => exact .inl (if_pos heq)
    next hne =>
      rw [if_neg hne, h.2]
      exact .inr (hwords _ h.1)
  length h := h.elim (fun h => ⟨_, h⟩) fun h => ⟨_, h⟩

theorem readable_of_writableIn (hnames : (paths.map PackageId.guessName).Nodup) :
    Readable ⟨own, paths.map plainImport⟩ (shortIn own.path) (settledIn own)
      (WritableIn own.path paths) IsLength where
  own {package name} h hq := by
    obtain ⟨-, h⟩ := h
    rw [shortIn] at hq
    split at h
    next heq => exact ⟨h, if_pos heq⟩
    next hne =>
      rw [if_neg hne, h.2] at hq
      have hword := hwords _ h.1
      rw [show PackageId.guessName package.path = "" from hq] at hword
      exact absurd hword not_writes_empty
  foreign {package name} h hq := by
    obtain ⟨-, h⟩ := h
    rw [shortIn] at hq ⊢
    split at h
    next heq => exact absurd (if_pos heq) hq
    next hne =>
      rw [if_neg hne, settledIn, if_neg hne, h.2]
      exact import?_plainImport hnames h.1
  length h := kindOf_of_isLength h

end

/-- The empty path suggests no name. -/
theorem ne_empty_of_writes_guessName {path : String}
    (h : Kind.identifier.Writes (PackageId.guessName path)) : path ≠ "" := by
  rintro rfl
  exact absurd h (by decide)

/-! ### The declaration of the forwarding method -/

section

variable {qualifier : PackageId → String}

/-- The declaration of an interface with one method, given the pieces of its parameters. -/
def signaturePieces (name method : String) (params : List (List Piece)) : List Piece :=
  [Piece.key .typeKw, .space] ++ ([Piece.name name, .space] ++
    ([Piece.key .interfaceKw, .space] ++ ([Piece.leftBrace, .space] ++
      ([Piece.name method] ++ (listPieces params ++ [Piece.space, .rightBrace])))))

theorem stable_signaturePieces {name method : String} (hname : Kind.identifier.Writes name)
    (hmethod : Kind.identifier.Writes method) {params : List (List Piece)}
    (hparams : Stable (listPieces params)) : Stable (signaturePieces name method params) := by
  have hspace : Divided (textOf [.space]) := divided_cons (by decide)
  have hlist : Free (listPieces params ++ [.space, .rightBrace]) :=
    hparams.append_free (free_space.append free_rightBrace) (divided_cons (by decide))
  have hbody : Stable ([.name method] ++ (listPieces params ++ [.space, .rightBrace])) :=
    ((stable_name hmethod).append_free hlist (divided_cons (by decide))).stable
  exact ((stable_key _).append_free free_space hspace).append_stable
    (((stable_name hname).append_free free_space hspace).append_stable
      (((stable_key _).append_free free_space hspace).append_stable
        ((free_leftBrace.append free_space).append_stable hbody)))

/-- An interface with one method that has no results. -/
def lonelyInterface (method : String) (params : List Param) (variadic : Bool) : GoType :=
  .interface ⟨[⟨method, ⟨params, [], variadic⟩⟩], []⟩

theorem wordsOfText_signaturePieces (name method : String) (params : List (List Piece))
    (hinline : ∀ p ∈ signaturePieces name method params, p.isInline) :
    wordsOfText (signaturePieces name method params) =
      typeWords name false (⟨.keyword .interfaceKw, "interface"⟩ :: ⟨.leftBrace, "\x7b"⟩ ::
        ⟨.identifier, method⟩ :: (lexemes (listPieces params) ++ [⟨.rightBrace, "\x7d"⟩])) := by
  have hends : endsAfter false (signaturePieces name method params) = true := by
    have hsplit : signaturePieces name method params =
        ([Piece.key .typeKw, .space] ++ ([Piece.name name, .space] ++
          ([Piece.key .interfaceKw, .space] ++ ([Piece.leftBrace, .space] ++
            ([Piece.name method] ++ listPieces params))))) ++ [Piece.space, .rightBrace] := by
      simp [signaturePieces]
    rw [hsplit, endsAfter_append]
    rfl
  rw [wordsOfText, wordsOf_inline hinline, hends]
  simp [signaturePieces, lexemes, typeWords, definitionWords, closing, Keyword.text]

theorem words_lonelyInterface (method : String) (params : List Param) (variadic : Bool) :
    (lonelyInterface method params variadic).words qualifier =
      ⟨.keyword .interfaceKw, "interface"⟩ :: ⟨.leftBrace, "\x7b"⟩ :: ⟨.identifier, method⟩ ::
        (lexemes (listPieces ((hookedParams variadic params).map (HookedParam.pieces qualifier))) ++
          [⟨.rightBrace, "\x7d"⟩]) := by
  have hpieces : (lonelyInterface method params variadic).pieces qualifier =
      .key .interfaceKw :: bodyPieces [.name method :: listPieces
        ((hookedParams variadic params).map (HookedParam.pieces qualifier))] := by
    have hsignature := Signature.pieces_eq qualifier ⟨params, [], variadic⟩
    simp only [resultPieces, List.append_nil] at hsignature
    rw [← hsignature]
    rfl
  rw [GoType.words, hpieces, bodyPieces]
  simp [joined, lexemes, Keyword.text]

end

theorem wellFormed_lonelyInterface {named : PackageId → String → Prop} {length : String → Prop}
    {method : String} {params : List Param} {variadic : Bool}
    (hmethod : Kind.identifier.Writes method) (hproper : Signature.Proper ⟨params, [], variadic⟩)
    (hparams : ∀ s ∈ params.map Param.type, s.WellFormed named length) :
    (lonelyInterface method params variadic).WellFormed named length := by
  refine GoType.wellFormed_iff.2 ⟨?_, fun s hs => hparams s ?_⟩
  · rintro _ (_ | ⟨_, ⟨⟩⟩)
    exact ⟨hmethod, hproper⟩
  · have hcomponents : (lonelyInterface method params variadic).components =
        [⟨method, ⟨params, [], variadic⟩⟩].flatMap (fun m : Method => m.signature.types) ++ [] := rfl
    rw [hcomponents] at hs
    simpa [Signature.types] using hs

theorem settled_lonelyInterface (settle : PackageId → PackageId) (method : String)
    (params : List Param) (variadic : Bool) :
    (lonelyInterface method params variadic).settled settle =
      lonelyInterface method (params.map (Param.mapType (GoType.settled settle))) variadic :=
  GoType.relocate_eq (by simp [lonelyInterface])

/-! ### The parameters of the hooked method -/

section

variable {pkg : Package} {config : Config} {method : HookedMethod} {destination : PackageId}
  {t : HookFile} {m : Method}

theorem getLast?_forwardedParams (index : Nat) (variadic : Bool) (params : List Param) :
    (forwardedParams index (hookedParams variadic params)).getLast?.map Param.type =
      params.getLast?.map Param.type := by
  rw [← List.getLast?_map, ← List.getLast?_map, forwardedParams, List.map_map]
  have htypes := (type_forwarded index (hookedParams variadic params)).trans
    (type_hookedParams variadic params)
  exact congrArg List.getLast? htypes

/-- The parameters of the forwarding method make a proper signature. -/
theorem proper_forwardedParams (hm : m.signature.Proper) :
    Signature.Proper ⟨forwardedParams 0 (hookedParams m.signature.variadic m.signature.params), [],
      m.signature.variadic⟩ where
  params := by
    refine .inr fun p hp => ?_
    obtain ⟨q, hq, rfl⟩ := List.mem_map.1 hp
    exact writes_forwarded (fun q hq => hm.params.name (mem_of_hookedParams hq).1) 0 q hq
  results := .inl (by simp)
  variadic hvariadic := by
    obtain ⟨p, hp, hslice⟩ := hm.variadic hvariadic
    have hlast := getLast?_forwardedParams 0 m.signature.variadic m.signature.params
    rw [Option.mem_def.1 hp] at hlast
    obtain ⟨q, hq, heq⟩ := Option.map_eq_some_iff.1 hlast
    exact ⟨q, hq, heq ▸ hslice⟩

/-- The types of the forwarded parameters can be written in the destination: they belong to the
destination itself, or to packages that are imported under the names that they have. -/
theorem writableIn_params (hpkg : pkg.WellTyped) {interface : String}
    (honly : pkg.OnlyMethod interface m)
    (hplan : t.Settles config ⟨m.name, hookedParams m.signature.variadic m.signature.params⟩
      ⟨pkg.id, destination⟩)
    (hsource : pkg.id.name = PackageId.guessName pkg.id.path)
    (hlengths : ∀ s ∈ m.signature.params.map Param.type, ∀ n elem, s.Has (.array n elem) →
      IsLength n)
    (hpredeclared : ∀ s ∈ m.signature.params.map Param.type, ∀ package n,
      s.Has (.named package n) → package.path = destination.path → n ∉ predeclared) :
    ∀ s ∈ m.signature.params.map Param.type,
      s.WellFormed (WritableIn destination.path t.imports) IsLength := by
  intro s hs
  obtain ⟨p, hp, heq⟩ := List.mem_map.1 hs
  have hmember : s ∈ m.signature.types := Signature.mem_types.2 (.inl ⟨p, hp, heq⟩)
  refine ((hpkg.onlyMethod honly).types s hmember).imp ?_ fun n elem hhas _ => hlengths s hs n elem hhas
  rintro package n hhas ⟨hname, hknows⟩
  refine ⟨hname, ?_⟩
  split
  next heq => exact hpredeclared s hs package n hhas heq
  next hne =>
    refine ⟨(hplan.imports _).2 ⟨hne, .inl ⟨package, n, ⟨s, ?_, hhas⟩, rfl⟩⟩, ?_⟩
    · rwa [type_hookedParams]
    · rcases hknows with rfl | ⟨heq, -⟩
      · exact PackageId.mk.injEq .. ▸ ⟨rfl, hsource⟩
      · exact heq

end

/-- The name that the files of a package give is a name. -/
theorem Loads.writes_name {path name : String} {sources : List SourceText} {files : List File}
    (h : Loads path sources name files) : Kind.identifier.Writes name ∧ name ≠ "_" := by
  obtain ⟨file, hfile⟩ := List.exists_mem_of_ne_nil files h.exist
  exact h.package file hfile ▸ (h.sound hfile).package

/-! ### Reading the declaration back -/

/-- A declaration of an interface with the generated method alone is read as it was written. -/
theorem parseFile_signatureLines {path name : String} {t : HookFile} {params : List Param}
    {variadic : Bool} (hname : Kind.identifier.Writes name)
    (hmethod : Kind.identifier.Writes t.methodName)
    (hpackage : Kind.identifier.Writes t.packageName ∧ t.packageName ≠ "_")
    (himports : ∀ p ∈ t.imports, Importable p ∧ Kind.identifier.Writes (PackageId.guessName p))
    (hnames : (t.imports.map PackageId.guessName).Nodup)
    (hproper : Signature.Proper ⟨params, [], variadic⟩)
    (htypes : ∀ s ∈ params.map Param.type, s.WellFormed (WritableIn path t.imports) IsLength)
    (hargs : t.declarationArgs.map String.toList =
      (hookedParams variadic params).map (textOf ∘ HookedParam.pieces (shortIn path)))
    (file : String) :
    ∃ pos references, parseFile file (unlines (t.signatureLines name)) path =
      .ok ⟨file, t.packageName, t.imports.map plainImport,
        [⟨⟨name, .type (lonelyInterface t.methodName (params.map (Param.mapType
          (GoType.settled (settledIn ⟨path, t.packageName⟩)))) variadic) false⟩, pos⟩],
        references⟩ := by
  have hwords : ∀ p ∈ t.imports, Kind.identifier.Writes (PackageId.guessName p) := fun p hp =>
    (himports p hp).2
  have hspelled : Spelled (shortIn path) (WritableIn path t.imports) IsLength :=
    spelled_of_writableIn hwords path
  have hreadable : Readable ⟨⟨path, t.packageName⟩, t.imports.map plainImport⟩ (shortIn path)
      (settledIn ⟨path, t.packageName⟩) (WritableIn path t.imports) IsLength :=
    readable_of_writableIn hwords hnames
  -- the interface is read from its words
  obtain ⟨type, htype⟩ : ∃ type, type = lonelyInterface t.methodName params variadic := ⟨_, rfl⟩
  have hwellFormed : type.WellFormed (WritableIn path t.imports) IsLength :=
    htype ▸ wellFormed_lonelyInterface hmethod hproper htypes
  have hback : ReadsBack (shortIn path) (settledIn ⟨path, t.packageName⟩)
      (typeExpr ⟨⟨path, t.packageName⟩, t.imports.map plainImport⟩) type :=
    .bounded fun n hn => reads_typeWithin hreadable hwellFormed hn
  have hread : (typeExpr ⟨⟨path, t.packageName⟩, t.imports.map plainImport⟩).Reports
      (type.words (shortIn path)) (fun s _ => s = type.settled (settledIn ⟨path, t.packageName⟩) ∧
        True) (endsType ·) := hback.imp (fun _ h => ⟨h, trivial⟩) fun _ h => h
  have hstart : type.words (shortIn path) = _ := htype ▸ words_lonelyInterface ..
  -- the words of the file are those of its lines
  have hlines : LexesAll (t.signatureLines name)
      ([⟨.keyword .packageKw, "package"⟩, ⟨.identifier, t.packageName⟩, .lineEnd] ++
        (importWords t.imports ++ typeWords name false (type.words (shortIn path)))) := by
    have hstable : Stable (signaturePieces name t.methodName
        ((hookedParams variadic params).map (HookedParam.pieces (shortIn path)))) := by
      have hsignature : Stable (Signature.pieces (shortIn path) ⟨params, [], variadic⟩) := by
        refine hproper.stable fun s hs => (htypes s ?_).stable hspelled
        simpa [Signature.types] using hs
      rw [Signature.pieces_eq] at hsignature
      exact stable_signaturePieces hname hmethod (by simpa [resultPieces] using hsignature)
    have hline : Lexes ("type " ++ name ++ " interface \x7b " ++ t.methodName ++ "(" ++
        ", ".intercalate t.declarationArgs ++ ") \x7d") _ := hstable.lexes (by
      have hlist := toList_list (hargs.trans List.map_map.symm)
      have hclosed := congrArg (· ++ [' ', '\x7d']) hlist
      simpa [signaturePieces, Keyword.text] using hclosed)
    rw [wordsOfText_signaturePieces _ _ _ hstable.inline, ← words_lonelyInterface, ← htype] at hline
    have hclause : LexesAll ["package " ++ t.packageName, ""] _ :=
      .cons (lexes_packageLine hpackage.1) (.cons lexes_empty .nil)
    have himported := lexesAll_importLines fun p hp => (himports p hp).1
    have hall := (hclause.append himported).append (.cons hline .nil)
    simpa [HookFile.signatureLines] using hall
  have hdeclares : Declares ⟨⟨path, t.packageName⟩, t.imports.map plainImport⟩
      (typeWords name false _ ++ []) _ :=
    .type hread (.inr ⟨_, _, hstart, by simp, by simp⟩) declares_nil
  rw [List.append_nil] at hdeclares
  have hcontents : (contents path).Reports _ _ (· = none) :=
    reports_contents hpackage.2 (fun p hp => ⟨(himports p hp).1, ne_empty_of_writes_guessName
      (himports p hp).2⟩) (by simp [typeWords]) hdeclares
  obtain ⟨⟨_, _, _⟩, references, hok, rfl, rfl, pos, _, _, _, rfl, -, -, rfl, -⟩ :=
    parseFile_unlines hlines hcontents file
  refine ⟨pos, references, ?_⟩
  rw [hok, htype, settled_lonelyInterface]

/-- What a type is settled as has the same paths in it. -/
theorem byPath_settledIn (own : PackageId) (s : GoType) :
    (s.settled (settledIn own)).byPath = s.byPath := by
  rw [GoType.byPath, GoType.relocate_relocate, GoType.byPath]
  refine GoType.relocate_congr fun package _ _ => ?_
  rw [settledIn]
  split
  next heq => rw [heq]
  next => rfl

/-- **Forwarded signatures are read back.** In any package that a hook can go to, a file that imports
what the hook imports, and declares an interface with the generated method alone, is read. The
method has the name of the hooked one, parameters of the same types in the same order, three dots
where that one has them, and no results. -/
theorem exists_method_of_signatureLines {path interface name : String}
    {sources : List SourceText} {pkg : Package} {config : Config} {method : HookedMethod}
    {destination : PackageId} {t : HookFile} (hpkg : Package.ofSources path sources = .ok pkg)
    (hmethod : pkg.extract interface = .ok method)
    (hplan : HookFile.ofMethod config method ⟨pkg.id, destination⟩ = .ok t)
    (himports : ∀ p ∈ t.imports, Importable p ∧ Kind.identifier.Writes (PackageId.guessName p))
    (hnames : (t.imports.map PackageId.guessName).Nodup)
    (hsource : pkg.id.name = PackageId.guessName pkg.id.path)
    (hdestination : Kind.identifier.Writes destination.name ∧ destination.name ≠ "_")
    (hlengths : ∀ p ∈ method.params, ∀ n elem, p.type.Has (.array n elem) → IsLength n)
    (hpredeclared : ∀ p ∈ method.params, ∀ package n, p.type.Has (.named package n) →
      package.path = destination.path → n ∉ predeclared)
    (hname : Kind.identifier.Writes name) (file : String) :
    ∃ hooked read : Method, ∃ pos references, pkg.OnlyMethod interface hooked ∧
      parseFile file (unlines (t.signatureLines name)) destination.path =
        .ok ⟨file, t.packageName, t.imports.map plainImport,
          [⟨⟨name, .type (.interface ⟨[read], []⟩) false⟩, pos⟩], references⟩ ∧
      read.name = hooked.name ∧
      read.signature.params.map (fun p => p.type.byPath) =
        hooked.signature.params.map (fun p => p.type.byPath) ∧
      read.signature.variadic = hooked.signature.variadic ∧
      read.signature.results = [] ∧ hooked.signature.results = [] := by
  obtain ⟨package, files, hloads, rfl⟩ := Package.ofSources_eq_ok.1 hpkg
  obtain ⟨-, m, honly, hresults, rfl⟩ := Package.extract_eq_ok.1 hmethod
  have hsettles := HookFile.settles_of_ofMethod hplan
  have hknown := hloads.wellTyped.onlyMethod honly
  have hpackage : Kind.identifier.Writes t.packageName ∧ t.packageName ≠ "_" := by
    rw [hsettles.packageName, Target.packageName]
    split
    · simpa using hloads.writes_name
    · exact hdestination
  -- the forwarded parameters have the types of the declared ones
  obtain ⟨params, hparams⟩ : ∃ params, params =
    forwardedParams 0 (hookedParams m.signature.variadic m.signature.params) := ⟨_, rfl⟩
  have hforwarded : params.map Param.type = m.signature.params.map Param.type := by
    rw [hparams, forwardedParams, List.map_map, ← type_hookedParams m.signature.variadic]
    exact type_forwarded 0 _
  have htypes : ∀ s ∈ params.map Param.type,
      s.WellFormed (WritableIn destination.path t.imports) IsLength := by
    rw [hforwarded]
    refine writableIn_params hloads.wellTyped honly hsettles hsource ?_ ?_
    all_goals rw [← type_hookedParams m.signature.variadic, List.forall_mem_map]
    · exact hlengths
    · exact hpredeclared
  have hargs : t.declarationArgs.map String.toList =
      (hookedParams m.signature.variadic params).map
        (textOf ∘ HookedParam.pieces (shortIn destination.path)) := by
    rw [hparams, hookedParams_forwardedParams]
    exact hsettles.declarationArgs
  obtain ⟨pos, references, hok⟩ := parseFile_signatureLines hname
    (hsettles.methodName ▸ hknown.name) hpackage himports hnames
    (hparams ▸ proper_forwardedParams hknown.proper) htypes hargs file
  refine ⟨m, _, pos, references, honly, hok, hsettles.methodName, ?_, rfl, rfl, hresults⟩
  have hby := congrArg (List.map GoType.byPath) hforwarded
  simpa [Function.comp_def, Param.mapType, byPath_settledIn] using hby

/-- A hook that is planned for the one method which an interface declares. What is checked of it holds
of the plan. -/
theorem exists_plan_of_check (path interface : String) (sources : List SourceText)
    (destination : PackageId) (config : Config) (check : Package → HookedMethod → HookFile → Bool)
    (hinterface : interface ≠ "")
    (h : ((Package.ofChars? path (sources.map SourceText.chars)).any fun pkg =>
      ((pkg.lookup? interface).bind Object.loneMethod?).any fun m =>
        let method : HookedMethod :=
          ⟨m.name, hookedParams m.signature.variadic m.signature.params⟩
        m.signature.results.isEmpty &&
          (HookFile.ofMethod config method ⟨pkg.id, destination⟩).toOption.any (check pkg method))
      = true) :
    ∃ pkg method t, Package.ofSources path sources = .ok pkg ∧
      pkg.extract interface = .ok method ∧
      HookFile.ofMethod config method ⟨pkg.id, destination⟩ = .ok t ∧
      check pkg method t = true := by
  obtain ⟨pkg, hpkg, h⟩ := Package.exists_ofSources_of_any h
  obtain ⟨m, hlone, h⟩ := (Option.any_eq_true _ _).1 h
  obtain ⟨hresults, h⟩ := Bool.and_eq_true_iff.1 h
  obtain ⟨t, hplan, hcheck⟩ := exists_ok_of_any h
  exact ⟨pkg, _, t, hpkg, Package.extract_eq_ok.2 ⟨hinterface, m,
    Package.onlyMethod_of_loneMethod? hlone, List.isEmpty_iff.1 hresults, rfl⟩, hplan, hcheck⟩

/-- A package with an interface whose method takes an imported type, an array and any number of
pointers. -/
def alertSources : List SourceText := [
  ⟨"sink.go", "package alert\nimport \"context\"\n" ++
    "type Sink interface \x7b Deliver(ctx context.Context, digest [32]byte, _ ...*Target) \x7d\n" ++
    "type Target struct \x7b Name string \x7d"⟩]

/-- A hook for the interface in a package of its own. -/
def relayConfig : Config where
  source := ⟨"./alert", "Sink"⟩
  destination := ⟨"./relay", "Relay"⟩

/-- Whether the array lengths in a type are numbers, and the types of a package in it are not named
like predeclared ones. -/
def GoType.isPlainIn (destination : String) (type : GoType) : Bool :=
  type.everywhere fun s =>
    match s with
    | .array n _ => decide (Kind.number.Writes n)
    | .named package n => decide (package.path = destination → n ∉ predeclared)
    | _ => true

/-- The hook for `Sink`, with what it imports and the types that it takes. -/
theorem exists_hook_of_alertSources :
    ∃ pkg method t, Package.ofSources "example.com/alert" alertSources = .ok pkg ∧
      pkg.extract "Sink" = .ok method ∧
      HookFile.ofMethod relayConfig method ⟨pkg.id, ⟨"example.com/relay", "relay"⟩⟩ = .ok t ∧
      t.imports = ["context", "example.com/alert"] ∧
      pkg.id.name = PackageId.guessName pkg.id.path ∧
      ∀ p ∈ method.params, p.type.isPlainIn "example.com/relay" = true := by
  obtain ⟨pkg, method, t, hpkg, hmethod, hplan, hcheck⟩ := exists_plan_of_check
    "example.com/alert" "Sink" alertSources ⟨"example.com/relay", "relay"⟩ relayConfig
    (fun pkg method t => decide (t.imports = ["context", "example.com/alert"] ∧
      pkg.id.name = PackageId.guessName pkg.id.path) &&
        method.params.all fun p => p.type.isPlainIn "example.com/relay") (by decide) (by
      simp only [alertSources, List.map_cons, List.map_nil, SourceText.chars, String.toList_append]
      repeat rw [String.toList_ofList]
      decide +kernel)
  obtain ⟨hfacts, hplain⟩ := Bool.and_eq_true_iff.1 hcheck
  obtain ⟨himports, hsource⟩ := of_decide_eq_true hfacts
  exact ⟨pkg, method, t, hpkg, hmethod, hplan, himports, hsource, List.all_eq_true.1 hplain⟩

theorem exists_method_of_alertSources :
    ∃ pkg method t, Package.ofSources "example.com/alert" alertSources = .ok pkg ∧
      pkg.extract "Sink" = .ok method ∧
      HookFile.ofMethod relayConfig method ⟨pkg.id, ⟨"example.com/relay", "relay"⟩⟩ = .ok t ∧
      ∃ hooked read : Method, ∃ pos references, pkg.OnlyMethod "Sink" hooked ∧
        parseFile "probe.go" (unlines (t.signatureLines "Probe")) "example.com/relay" =
          .ok ⟨"probe.go", t.packageName, t.imports.map plainImport,
            [⟨⟨"Probe", .type (.interface ⟨[read], []⟩) false⟩, pos⟩], references⟩ ∧
        read.name = hooked.name ∧
        read.signature.params.map (fun p => p.type.byPath) =
          hooked.signature.params.map (fun p => p.type.byPath) ∧
        read.signature.variadic = hooked.signature.variadic ∧
        read.signature.results = [] ∧ hooked.signature.results = [] := by
  obtain ⟨pkg, method, t, hpkg, hmethod, hplan, himports, hsource, hplain⟩ :=
    exists_hook_of_alertSources
  have hpart {p : HookedParam} (hp : p ∈ method.params) {s : GoType} (hs : p.type.Has s) :=
    GoType.everywhere_iff.1 (hplain p hp) s hs
  have hwords : ∀ p ∈ t.imports,
      Importable p ∧ Kind.identifier.Writes (PackageId.guessName p) := by
    rw [himports]
    simp only [List.forall_mem_cons]
    refine ⟨⟨.of_all ?_ ?_, ?_⟩, ⟨.of_all ?_ ?_, ?_⟩, by simp⟩
    all_goals decide
  have hnames : (t.imports.map PackageId.guessName).Nodup := by
    rw [himports]
    decide
  have hname : Kind.identifier.Writes "Probe" := by decide
  have hread := exists_method_of_signatureLines hpkg hmethod hplan hwords hnames hsource
    (by decide) (fun p hp n elem hs => .inl (of_decide_eq_true (hpart hp hs)))
    (fun p hp package n hs => of_decide_eq_true (hpart hp hs)) hname "probe.go"
  exact ⟨pkg, method, t, hpkg, hmethod, hplan, hread⟩

end Multicast
