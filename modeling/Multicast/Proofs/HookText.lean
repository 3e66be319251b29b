import Multicast.Proofs.HookMethods
import Multicast.Proofs.HookTypes
import Multicast.Proofs.Qualifiers

/-!
# A generated file is read

What is read of a generated file are its three types, and the names that they leave open: the methods
are skipped. This takes no more than that every slot of the file holds what it is meant for
(`HookFile.Sound`). A planned file does, if its package has a proper name and what it takes over can be
written down (`HookFile.sound_of_writable`).

## Slots

A generated file is a template with slots, and it can be read if each slot holds what it is meant for:
names where names stand, an import path in each line of the imports, arguments that can be listed. This
says nothing of where the values come from. A plan fills the slots from a hooked method and a target, and
what has to be known of these is little: the names that are copied are names, the paths can be quoted, the
lengths of arrays are no delimiters.

That imports suggest the names which are used for them is no condition. It is how the names are made.
-/

namespace Multicast

open Source Syntax Multicast.Syntax.Parser

namespace HookFile

/-! ### The file -/

/-- **A generated file that can be read**: all its slots hold what they are meant for, when the
interface is referred to as `ref`. -/
structure Sound (t : HookFile) (ref : InterfaceRef) : Prop where
  package : Kind.identifier.Writes t.packageName ∧ t.packageName ≠ "_"
  imports : ∀ path ∈ t.fileImports, Importable path ∧ path ≠ ""
  hook : Kind.identifier.Writes t.hookName
  interface : ref.text = t.interfaceRef ∧ ref.Spelled
  method : Kind.identifier.Writes t.methodName
  receiver : Kind.identifier.Writes t.receiver
  entry : Kind.identifier.Writes t.entry
  declarationArgs : Listable t.declarationArgs
  callArgs : Listable t.callArgs

/-- What the imports of a generated file let its names mean. -/
def ownScope (t : HookFile) (path : String) : Scope :=
  ⟨⟨path, t.packageName⟩, t.fileImports.map plainImport⟩

section

variable {t : HookFile} {ref : InterfaceRef} (h : t.Sound ref)

include h

theorem Sound.names (place : Place) : Kind.identifier.Writes (t.nameAt ref place) := by
  cases place with
  | receiver => exact h.receiver
  | hook => exact h.hook
  | package =>
    cases ref with
    | own name => exact h.interface.2
    | imported package name => exact h.interface.2.1
  | interface =>
    cases ref with
    | own name => exact h.interface.2
    | imported package name => exact h.interface.2.2
  | method => exact h.method
  | entry => exact h.entry

/-- **A generated file is read**: the types are declared, and the methods are skipped. -/
theorem Sound.exists_file {path : String} {mutex : PackageId} {interface : GoType}
    (hmutex : t.threadSafe = true → (t.ownScope path).import? "sync" = some mutex)
    (hmeans : ref.Means (t.ownScope path) interface) (file : String) :
    ∃ new, parseFile file t.render path = .ok new ∧ new.package = t.packageName ∧
      new.imports = t.fileImports.map plainImport ∧
      new.declarations.map Declaration.object =
        t.objects ⟨path, t.packageName⟩ mutex interface ∧
      new.references.map Reference.name = "hooked" :: ref.openNames := by
  -- the methods are skipped, beginning with the last one
  have hend : Declares (t.ownScope path) [] (Makes [] []) := declares_end
  obtain ⟨forward, hforward, hdeclares⟩ :=
    (isMethod_forwardLines h.names h.declarationArgs h.callArgs).skipped hend
  obtain ⟨remove, hremove, hdeclares⟩ := (isMethod_removeLines h.names).skipped hdeclares
  obtain ⟨append, happend, hdeclares⟩ :=
    (isMethod_appendLines h.names h.interface.1).skipped hdeclares
  have htypes : Declares (t.ownScope path)
      (t.typesWords ⟨path, t.packageName⟩ mutex interface ref ++ _) _ :=
    declares_types hmutex hmeans hdeclares
  -- the words of the file are those of its lines
  have hfront : LexesAll [header, "", "package " ++ t.packageName, ""] _ :=
    .cons lexes_header <| .cons lexes_empty <| .cons (lexes_packageLine h.package.1) <|
      .cons lexes_empty .nil
  have himports := lexesAll_importLines fun path hpath => (h.imports path hpath).1
  have hlines : LexesAll t.lines _ :=
    ((((hfront.append himports).append (lexesAll_typeLines h.hook h.method h.interface.1
      h.interface.2 ⟨path, t.packageName⟩ mutex interface)).append happend).append hremove).append
        hforward
  have hcontents : (contents path).Reports _ _ (· = none) :=
    reports_contents h.package.2 h.imports (by simp [typesWords, typeWords]) htypes
  obtain ⟨⟨_, _, declarations⟩, references, hok, rfl, rfl, hmade, hnames⟩ :=
    parseFile_unlines hlines (by simpa using hcontents) file
  exact ⟨_, hok, rfl, rfl, hmade, by simpa using hnames⟩

end

end HookFile

/-! ### Build constraints

The lines before the package clause are always the same, and none of them is a build constraint. The
clause itself ends the search. So the file counts when the package is loaded again. -/

theorem lines_cons {line : List Char} (h : '\n' ∉ line) (rest : List Char) :
    Text.lines (line ++ '\n' :: rest) = line :: Text.lines rest := by
  induction line with
  | nil => simp [Text.lines, Text.cutAt]
  | cons c line ih =>
    obtain ⟨hc, hline⟩ : '\n' ≠ c ∧ '\n' ∉ line := by simpa using h
    rw [Text.lines] at ih ⊢
    rw [List.cons_append, Text.cutAt, if_neg (by simpa using hc.symm), ih hline]

/-- What a text begins with stays there if blanks are dropped, unless it begins or ends in one. -/
theorem after?_trim {b c : Char} {bs : List Char} (hb : Text.isBlank b = false)
    (hc : Text.isBlank c = false) (cs : List Char) :
    (Text.after? (b :: bs) (Text.trim (b :: bs ++ c :: cs))).isSome = true := by
  obtain ⟨more, hmore⟩ : ∃ more, Text.trim (b :: bs ++ c :: cs) = b :: bs ++ c :: more := by
    have hfront : (b :: bs ++ c :: cs).dropWhile Text.isBlank = b :: bs ++ c :: cs :=
      List.dropWhile_cons_of_neg (by simp [hb])
    have hback : (b :: bs ++ c :: cs).reverse = cs.reverse ++ c :: (b :: bs).reverse := by simp
    rw [Text.trim, Text.strip, hfront, hback, List.dropWhile_append]
    split
    next hempty => exact ⟨[], by simp [List.dropWhile_cons_of_neg, hc]⟩
    next => exact ⟨(cs.reverse.dropWhile Text.isBlank).reverse, by simp⟩
  have hprefix : (b :: bs).isPrefixOf (b :: bs ++ c :: more) = true :=
    List.isPrefixOf_iff_prefix.2 (List.prefix_append _ _)
  rw [hmore, Text.after?, if_pos hprefix]
  rfl

/-- A name begins with no blank. -/
theorem isBlank_of_writes {n : String} (h : Kind.identifier.Writes n) :
    ∃ c cs, n.toList = c :: cs ∧ Text.isBlank c = false := by
  obtain ⟨c, cs, htext, hnext⟩ := Piece.Stands.next h
  refine ⟨c, cs, by simpa using htext, ?_⟩
  by_contra hblank
  have hblank : Text.isBlank c = true := by simpa using hblank
  rw [Piece.next] at hnext
  by_cases hline : c = '\n'
  · rw [if_pos hline] at hnext
    cases hnext
  · rw [if_neg hline, if_pos hblank] at hnext
    cases hnext

/-- A line that is neither a package clause nor a build constraint does not matter. -/
theorem ignoredAmong_of_plain {line : List Char} (h : saysIgnore (Text.trim line) = false ∧
    Text.after? "package ".toList (Text.trim line) = none) (lines : List (List Char)) :
    ignoredAmong (line :: lines) = ignoredAmong lines := by
  have hclause : ¬(Text.after? "package ".toList (Text.trim line)).isSome = true := by
    rw [h.2]
    exact Bool.false_ne_true
  rw [ignoredAmong, if_neg hclause, h.1, Bool.false_or]

/-- No build constraint excludes a generated file. -/
theorem HookFile.isIgnored_render {t : HookFile} (h : Kind.identifier.Writes t.packageName) :
    isIgnored t.render = false := by
  obtain ⟨c, cs, hname, hc⟩ := isBlank_of_writes h
  obtain ⟨others, hothers⟩ : ∃ others, t.lines =
      header :: "" :: ("package " ++ t.packageName) :: others :=
    ⟨"" :: (importLines t.fileImports ++ t.typeLines ++ t.appendLines ++ t.removeLines ++
      t.forwardLines), by simp [lines]⟩
  have hheader : '\n' ∉ header.toList ∧ saysIgnore (Text.trim header.toList) = false ∧
      Text.after? "package ".toList (Text.trim header.toList) = none := by decide
  have hempty : saysIgnore (Text.trim []) = false ∧
      Text.after? "package ".toList (Text.trim []) = none := by decide
  have hclause : '\n' ∉ ("package " ++ t.packageName).toList := by
    simp [newline_not_mem_of_writes h]
  have htext : t.render.toList = header.toList ++ '\n' :: ([] ++ '\n' ::
      (("package " ++ t.packageName).toList ++ '\n' :: (unlines others).toList)) := by
    have hrender : t.render.toList = _ := toList_unlines t.lines
    rw [hrender, hothers, toList_unlines]
    simp
  have hfound : (Text.after? "package ".toList
      (Text.trim ("package " ++ t.packageName).toList)).isSome = true := by
    have hpackage : "package ".toList = 'p' :: "ackage ".toList := by simp
    rw [String.toList_append, hname, hpackage]
    exact after?_trim (by decide) hc cs
  rw [isIgnored, htext, lines_cons hheader.1, lines_cons (by simp), lines_cons hclause]
  rw [ignoredAmong_of_plain hheader.2, ignoredAmong_of_plain hempty, ignoredAmong, if_pos hfound]

/-! ### Plans -/

section

variable {qualifier : PackageId → String} {ps : List HookedParam}

/-- A parameter, with or without three dots. -/
theorem HookedParam.stable_pieces {p : HookedParam} (hname : p.name = "" ∨ Kind.identifier.Writes p.name)
    (h : Stable (p.type.pieces qualifier)) : Stable (p.pieces qualifier) := by
  obtain ⟨name, type, tail⟩ := p
  refine stable_param hname ?_
  cases tail with
  | false => cases type <;> exact h
  | true =>
    cases type with
    | slice elem => exact free_dots.append_stable h.tail.tail
    | _ => exact h

/-- The parameters of a method are listed as they are declared. -/
theorem listable_declared {args : List String}
    (hargs : args.map String.toList = ps.map (textOf ∘ HookedParam.pieces qualifier))
    (hnames : ∀ p ∈ ps, Kind.identifier.Writes p.name)
    (htypes : ∀ p ∈ ps, Stable (p.type.pieces qualifier) ∧
      Balanced (kindsOf (p.type.pieces qualifier))) : Listable args := by
  intro arg harg
  have hmem : arg.toList ∈ ps.map (textOf ∘ HookedParam.pieces qualifier) :=
    hargs ▸ List.mem_map_of_mem harg
  obtain ⟨p, hp, htext⟩ := List.mem_map.1 hmem
  exact ⟨_, htext.symm, HookedParam.stable_pieces (.inr (hnames p hp)) (htypes p hp).1,
    HookedParam.balanced_pieces (htypes p hp).2⟩

/-- The parameters of a method are listed as they are passed on. -/
theorem listable_passed (hnames : ∀ p ∈ ps, Kind.identifier.Writes p.name) :
    Listable (ps.map HookedParam.passed) := by
  intro arg harg
  obtain ⟨p, hp, rfl⟩ := List.mem_map.1 harg
  have hname := stable_name (hnames p hp)
  rw [HookedParam.passed]
  split
  · have hpassed : Stable ([.name p.name] ++ [.dots]) :=
      (hname.append_free free_dots (divided_cons (by decide))).stable
    have hnone : kindsOf ([.name p.name] ++ [.dots]) = [.identifier, .ellipsis] := rfl
    have hkinds : Balanced [Kind.identifier, .ellipsis] := balanced_of_nest rfl
    exact ⟨_, by simp, hpassed, hnone ▸ hkinds⟩
  · exact ⟨[.name p.name], by simp, hname, balanced_of_nest rfl⟩

end

/-- The length of an array is a token that neither opens nor closes anything. -/
def IsPlainLength (n : String) : Prop :=
  ∃ kind : Kind, kind.Writes n ∧ kind.isPlain = true

/-- A type with plain lengths can be listed: it is cut into its pieces, and closes what it opens. -/
theorem GoType.WellFormed.stable_and_balanced {qualifier : PackageId → String}
    {named : PackageId → String → Prop} {t : GoType} (h : t.WellFormed named IsPlainLength)
    (hspelled : Spelled qualifier named IsPlainLength) :
    Stable (t.pieces qualifier) ∧ Balanced (kindsOf (t.pieces qualifier)) := by
  refine ⟨h.stable hspelled, GoType.balanced_pieces fun n elem hhas => ?_⟩
  obtain ⟨kind, hkind, hplain⟩ : IsPlainLength n := h _ hhas
  rwa [kindOf_eq hkind]

/-- The mutex is imported, under whichever of the imports is called so. -/
theorem HookFile.exists_mutex (t : HookFile) (path : String) :
    ∃ mutex, t.threadSafe = true → (t.ownScope path).import? "sync" = some mutex := by
  cases hsafe : t.threadSafe with
  | false => exact ⟨default, by simp⟩
  | true =>
    have hmem : plainImport syncPackage ∈ (t.ownScope path).imports :=
      List.mem_map_of_mem (HookFile.mem_fileImports.2 (.inr ⟨hsafe, rfl⟩))
    have hname : (plainImport syncPackage).localName? = some "sync" := by decide
    obtain ⟨i, hi⟩ : ∃ i, (t.ownScope path).imports.reverse.find? (·.localName? = some "sync") =
        some i := by
      rw [← Option.isSome_iff_exists, List.find?_isSome]
      exact ⟨_, List.mem_reverse.2 hmem, decide_eq_true hname⟩
    exact ⟨i.package, fun _ => by rw [Scope.import?, hi]; rfl⟩

/-- **What a hook is written with**, besides the name of its package: its own name, the import paths of
the package of the interface, unless the hook joins it, and of the imports of that package, the names
guessed for the latter, and the lengths of arrays can all be written down. -/
structure IsWritable (source : String) (files : List File) (pkg : Package) (destination hook : String) :
    Prop where
  hook : Kind.identifier.Writes hook
  source : source ≠ destination → Importable source ∧ source ≠ ""
  imports : ∀ file ∈ files, ∀ i ∈ file.imports,
    (∀ c ∈ i.package.path.toList, c ≠ '"' ∧ c ≠ '\\' ∧ c ≠ '\n') ∧
      (i.package.path ≠ destination → Kind.identifier.Writes (PackageId.guessName i.package.path))
  lengths : ∀ object ∈ pkg.objects, ∀ s ∈ object.kind.types, ∀ n elem, s.Has (.array n elem) →
    IsPlainLength n

section

variable {source name : String} {sources : List SourceText} {files : List File}
  {destination : PackageId} {config : Config} {t : HookFile}

/-- What is written of the types of a package in the package of the hook. -/
theorem IsWritable.spelled {pkg : Package} {destination hook : String}
    (hloads : Loads source sources name files) (h : IsWritable source files pkg destination hook) :
    Spelled (shortIn destination) (NamedIn ⟨source, name⟩ files) IsPlainLength where
  name h := h.1
  qualifier {package n} hnamed := by
    rw [shortIn]
    split
    next => exact .inl rfl
    next hother =>
      obtain rfl | ⟨file, hfile, i, hi, rfl⟩ := hnamed.2
      · exact .inr hloads.writes_name.1
      · rw [((hloads.sound hfile).imports i hi).package] at hother ⊢
        exact .inr ((h.imports file hfile i hi).2 hother)
  length h := h.imp fun _ h => h.1

/-- **A planned hook is sound**, if its package has a proper name and everything else can be written
down. -/
theorem HookFile.sound_of_writable (hloads : Loads source sources name files)
    (hplan : HookFile.ofInterface (linkFiles source name files) config.source.object destination
      config = .ok t) (hpackage : Kind.identifier.Writes t.packageName ∧ t.packageName ≠ "_")
    (hwritable : IsWritable source files (linkFiles source name files) destination.path
      config.destination.hookName) :
    t.Sound (if source = destination.path then .own config.source.object
      else .imported name config.source.object) := by
  obtain ⟨method, hmethod, hplan⟩ := HookFile.ofInterface_eq_ok.1 hplan
  obtain ⟨hinterface, m, honly, -, rfl⟩ := Package.extract_eq_ok.1 hmethod
  have hsettles := HookFile.settles_of_ofMethod hplan
  have htyped : (linkFiles source name files).TypedBy (NamedIn ⟨source, name⟩ files)
      IsPlainLength := by
    refine ⟨hloads.typedBy.names, fun object hobject s hs => ?_⟩
    exact (hloads.typedBy.types object hobject s hs).imp (fun _ _ _ h => h)
      fun n elem hhas _ => hwritable.lengths object hobject s hs n elem hhas
  have hm := htyped.onlyMethod honly
  -- the parameters have names, and types that can be written
  have hnames : ∀ p ∈ forwarded 0 (hookedParams m.signature.variadic m.signature.params),
      Kind.identifier.Writes p.name :=
    writes_forwarded (fun p hp => hm.proper.params.name (mem_of_hookedParams hp).1) 0
  have htype {s : GoType} (hs : s ∈ (hookedParams m.signature.variadic m.signature.params).map
      HookedParam.type) : s.WellFormed (NamedIn ⟨source, name⟩ files) IsPlainLength := by
    rw [type_hookedParams] at hs
    obtain ⟨p, hp, rfl⟩ := List.mem_map.1 hs
    exact hm.types _ (Signature.mem_types.2 (.inl ⟨p, hp, rfl⟩))
  constructor
  case package => exact hpackage
  case imports =>
    intro imported hmem
    rcases HookFile.mem_fileImports.1 hmem with hmem | ⟨-, rfl⟩
    · obtain ⟨hother, hmentions⟩ := (hsettles.imports imported).1 hmem
      rw [id_linkFiles] at hmentions
      obtain ⟨package, n, ⟨s, hs, hhas⟩, rfl⟩ | rfl := hmentions
      · obtain ⟨-, rfl | ⟨file, hfile, i, hi, rfl⟩⟩ := htype hs _ hhas
        · exact hwritable.source hother
        · have hsound := (hloads.sound hfile).imports i hi
          exact ⟨⟨(hwritable.imports file hfile i hi).1, hsound.bare⟩, hsound.path⟩
      · exact hwritable.source hother
    · exact ⟨.of_all (by decide) (by decide), by decide⟩
  case hook => exact hsettles.hookName ▸ hwritable.hook
  case interface =>
    obtain ⟨declared, -, hdeclared, -⟩ := honly
    obtain ⟨isAlias, hlookup⟩ := Package.declaredType_eq_ok.1 hdeclared
    have hname := htyped.names _ (List.mem_of_find?_eq_some hlookup)
    rw [hsettles.interfaceRef, Target.interfaceRef, id_linkFiles]
    by_cases hsame : source = destination.path
    · rw [if_pos hsame, if_pos (by simpa [Target.samePackage] using hsame)]
      exact ⟨rfl, hname⟩
    · rw [if_neg hsame, if_neg (by simpa [Target.samePackage] using hsame)]
      exact ⟨rfl, hloads.writes_name.1, hname⟩
  case method => exact (hsettles.methodName ▸ hm.name : Kind.identifier.Writes t.methodName)
  case receiver => exact hsettles.receiver
  case entry => exact hsettles.entry
  case declarationArgs =>
    refine listable_declared hsettles.declarationArgs hnames fun p hp => ?_
    exact (htype (type_mem_of_forwarded hp)).stable_and_balanced (hwritable.spelled hloads)
  case callArgs =>
    rw [hsettles.callArgs]
    exact listable_passed hnames

end

/-- **A hook that joins the package of its interface is sound**, if the names of imported packages
are names, and if the lengths of arrays are no delimiters. -/
theorem HookFile.sound_of_ofInterface {path name : String} {sources : List SourceText}
    {files : List File} {destination : PackageId} {config : Config} {t : HookFile}
    (hloads : Loads path sources name files)
    (hplan : HookFile.ofInterface (linkFiles path name files) config.source.object destination
      config = .ok t) (hdestination : destination.path = path)
    (hhook : Kind.identifier.Writes config.destination.hookName)
    (himports : ∀ file ∈ files, ∀ i ∈ file.imports, (∀ c ∈ i.package.path.toList, c ≠ '"' ∧
      c ≠ '\\' ∧ c ≠ '\n') ∧ Kind.identifier.Writes (PackageId.guessName i.package.path))
    (hlengths : ∀ object ∈ (linkFiles path name files).objects, ∀ s ∈ object.kind.types,
      ∀ n elem, s.Has (.array n elem) → IsPlainLength n) :
    t.Sound (.own config.source.object) := by
  have hwritable : IsWritable path files (linkFiles path name files) destination.path
      config.destination.hookName := by
    refine ⟨hhook, fun hother => absurd hdestination.symm hother, fun file hfile i hi => ?_, hlengths⟩
    exact ⟨(himports file hfile i hi).1, fun _ => (himports file hfile i hi).2⟩
  have hpackage : Kind.identifier.Writes t.packageName ∧ t.packageName ≠ "_" := by
    obtain ⟨method, -, hplanned⟩ := HookFile.ofInterface_eq_ok.1 hplan
    rw [(HookFile.settles_of_ofMethod hplanned).packageName, Target.packageName, id_linkFiles,
      if_pos (by simpa [Target.samePackage] using hdestination.symm)]
    exact hloads.writes_name
  have hsound := HookFile.sound_of_writable hloads hplan hpackage hwritable
  rwa [if_pos hdestination.symm] at hsound

end Multicast
