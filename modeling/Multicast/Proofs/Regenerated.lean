import Multicast.Proofs.Enlarged
import Multicast.Proofs.HookText
import Multicast.Proofs.Reserved

/-!
# Generating next to the interface

A hook can join the package of its interface. The package then loads with the generated file in it,
holds three types more than before, and has the same hook planned for the interface
(`exists_package_of_ofInterface`). The types must be new to the package, and what the generated file
takes over as it was written must not spoil the file: import paths, and lengths of arrays. A length
that is a parenthesis does (`not_ofSources_gateSources`), since nothing asks for a length to be a
number or a name.

## Conditions on three sides

The types of the hook must be new to the package, and no file may refer to names like theirs: a name that
came from a dot import would otherwise come to belong to the package. Import paths have to suggest names,
and the text of array lengths must leave the delimiters around it as they are. Everything else holds of
any plan: the generated file is read, counts, and gives the name of the package.

The same plan is then made for the enlarged package, since planning looks up nothing but what was there
before.
-/

namespace Multicast

open Source Syntax

/-! ### What the files of the package have to be like

The conditions are on the files and not on the package, since references are kept with files only. -/

/-- A file leaves names free if it neither declares nor refers to them. -/
structure Syntax.File.LeavesFree (file : File) (names : List String) : Prop where
  declared : ∀ n ∈ file.declared, n ∉ names
  referred : ∀ r ∈ file.references, r.name ∉ names

/-- A path that can be written in quotes, and suggests a name. -/
structure PlainPath (path : String) : Prop where
  chars : ∀ c ∈ path.toList, c ≠ '"' ∧ c ≠ '\\' ∧ c ≠ '\n'
  name : Kind.identifier.Writes (PackageId.guessName path)

namespace HookFile

/-- The names of the objects of a generated file. -/
theorem names_objects (t : HookFile) (own mutex : PackageId) (interface : GoType) :
    (t.objects own mutex interface).map Object.name = [t.hookName, "hooked", "Cancel"] := rfl

theorem isType_of_mem_objects {t : HookFile} {own mutex : PackageId} {interface : GoType}
    {object : Object} (h : object ∈ t.objects own mutex interface) :
    object.kind.isType = true := by
  simp only [objects, List.mem_cons, List.not_mem_nil, or_false] at h
  rcases h with rfl | rfl | rfl <;> rfl

theorem hookName_of_ofInterface {pkg : Package} {interface : String} {destination : PackageId}
    {config : Config} {t : HookFile}
    (h : HookFile.ofInterface pkg interface destination config = .ok t) :
    t.hookName = config.destination.hookName := by
  obtain ⟨method, -, hplan⟩ := ofInterface_eq_ok.1 h
  exact (settles_of_ofMethod hplan).hookName

end HookFile

/-- **A generated file can join the package of its interface.** -/
theorem joins_of_ofInterface {path name : String} {sources : List SourceText} {files : List File}
    {destination : PackageId} {config : Config} {t : HookFile} {mutex : PackageId}
    {interface : GoType} (hloads : Loads path sources name files)
    (hplan : HookFile.ofInterface (linkFiles path name files) config.source.object destination
      config = .ok t) (hdestination : destination.path = path)
    (hfree : ∀ file ∈ files, file.LeavesFree [config.destination.hookName, "hooked", "Cancel"])
    {new : File} (hpackage : new.package = t.packageName)
    (himports : new.imports = t.fileImports.map plainImport)
    (hobjects : new.declarations.map Declaration.object =
      t.objects ⟨path, t.packageName⟩ mutex interface)
    (hreferences : new.references.map Reference.name =
      "hooked" :: openNames config.source.object) :
    Joins name files new := by
  obtain ⟨method, hmethod, hplan⟩ := HookFile.ofInterface_eq_ok.1 hplan
  obtain ⟨-, m, ⟨declared, -, hdeclared, -⟩, -, rfl⟩ := Package.extract_eq_ok.1 hmethod
  have hsettles := HookFile.settles_of_ofMethod hplan
  -- the package of the interface is the destination, so the file is generated into it
  have hsame : Target.samePackage ⟨(linkFiles path name files).id, destination⟩ = true := by
    simp [Target.samePackage, hdestination]
  have hnames : new.declared = [config.destination.hookName, "hooked", "Cancel"] := by
    rw [← hsettles.hookName, ← t.names_objects ⟨path, t.packageName⟩ mutex interface, ← hobjects,
      List.map_map]
    rfl
  constructor
  case package =>
    rw [hpackage, hsettles.packageName, Target.packageName, if_pos hsame, id_linkFiles]
  case nodup =>
    have hreserved := HookFile.hookName_not_mem_of_ofMethod hplan
    rw [hnames]
    simpa [reservedTypes] using hreserved
  case fresh =>
    rw [hnames]
    exact fun file hfile => ⟨(hfree file hfile).declared, (hfree file hfile).referred⟩
  case dots =>
    -- imports are generated with names, never with a dot
    have hnone : (t.fileImports.map plainImport).filter Import.isDot = [] := by
      refine List.filter_eq_nil_iff.2 fun i hi => ?_
      obtain ⟨imported, -, rfl⟩ := List.mem_map.1 hi
      simp [plainImport, Import.isDot]
    rw [dotImports, himports, hnone, List.map_nil]
  case references =>
    intro r hr
    have hr : r.name ∈ "hooked" :: openNames config.source.object :=
      hreferences ▸ List.mem_map_of_mem hr
    rcases List.mem_cons.1 hr with heq | hopen
    · -- the type of the entries, which the hook refers to
      obtain ⟨d, hd, hobject⟩ : ∃ d ∈ new.declarations, d.object =
          ⟨"hooked", .type (.struct [⟨none, interface, none⟩]) false⟩ := by
        rw [← List.mem_map, hobjects]
        exact List.mem_cons_of_mem _ List.mem_cons_self
      exact .inl ⟨d, hd, by rw [hobject, heq], by rw [hobject]; rfl⟩
    · -- the interface, which the entries refer to
      have hinterface : r.name = config.source.object := by
        rw [openNames] at hopen
        split at hopen
        · cases hopen
        · exact List.mem_singleton.1 hopen
      obtain ⟨isAlias, hlookup⟩ := Package.declaredType_eq_ok.1 hdeclared
      obtain ⟨file, hfile, d, hd, hname, -⟩ := (lookup?_linkFiles hloads.nodup).1 hlookup
      rw [hinterface, hnames]
      refine .inr ⟨(hfree file hfile).declared _ (hname ▸ List.mem_map_of_mem hd), ?_⟩
      rw [declaredAsType?_eq hloads.nodup, hlookup]
      rfl

/-- **Generating next to the interface is stable.** A hook is planned for an interface and joins its
package. If no file of the package declares or refers to a name that the generated file declares, if
the import paths are plain, and if the length of every array is a token that is no delimiter, then the
package loads with the generated file, wherever it stands among the others. It has three types more,
the hook and the two that it comes with, and the same file is generated from it. -/
theorem exists_package_of_ofInterface {path : String} {before after : List SourceText}
    {pkg : Package} {destination : PackageId} {config : Config} {t : HookFile}
    (hpkg : Package.ofSources path (before ++ after) = .ok pkg)
    (hplan : HookFile.ofInterface pkg config.source.object destination config = .ok t)
    (hdestination : destination.path = path)
    (hhook : Kind.identifier.Writes config.destination.hookName)
    (hsources : ∀ s ∈ before ++ after, isIgnored s.text = false → ∀ file,
      parseFile s.name s.text path = .ok file →
        file.LeavesFree [config.destination.hookName, "hooked", "Cancel"] ∧
          ∀ i ∈ file.imports, PlainPath i.package.path)
    (hlengths : ∀ object ∈ pkg.objects, ∀ s ∈ object.kind.types, ∀ n elem,
      s.Has (.array n elem) → IsPlainLength n) (file : String) :
    ∃ pkg' mutex interface,
      Package.ofSources path (before ++ ⟨file, t.render⟩ :: after) = .ok pkg' ∧
      pkg' = (t.objects pkg.id mutex interface).foldl Package.insert pkg ∧
      (t.objects pkg.id mutex interface).map Object.name =
        [config.destination.hookName, "hooked", "Cancel"] ∧
      (∀ object ∈ t.objects pkg.id mutex interface, object.kind.isType = true ∧
        pkg.lookup? object.name = none) ∧
      HookFile.ofInterface pkg' config.source.object destination config = .ok t := by
  obtain ⟨name, files, hloads, rfl⟩ := Package.ofSources_eq_ok.1 hpkg
  have hfiles := hloads.of_sources hsources
  have hsound := HookFile.sound_of_ofInterface hloads hplan hdestination hhook
    (fun file hfile i hi => ⟨((hfiles file hfile).2 i hi).chars, ((hfiles file hfile).2 i hi).name⟩)
    hlengths
  -- the generated text is read as the objects of the file
  obtain ⟨mutex, hmutex⟩ := t.exists_mutex path
  obtain ⟨interface, hmeans⟩ : ∃ interface, InterfaceRef.Means (t.ownScope path)
    (.own config.source.object) interface := ⟨_, .own _⟩
  obtain ⟨new, hread, hpackage, himports, hobjects, hreferences⟩ :=
    hsound.exists_file hmutex hmeans file
  -- and so read, it loads with the others
  have hjoins := joins_of_ofInterface hloads hplan hdestination
    (fun file hfile => (hfiles file hfile).1) hpackage himports hobjects hreferences
  obtain ⟨files', hloads', hlinked⟩ := hloads.joins (s := ⟨file, t.render⟩)
    (HookFile.isIgnored_render hsound.package.1) hread hjoins
  have hid : (linkFiles path name files).id = ⟨path, t.packageName⟩ := by
    rw [id_linkFiles, ← hpackage, hjoins.package]
  rw [hobjects, ← hid] at hlinked
  have hdeclared : new.declared =
      (t.objects (linkFiles path name files).id mutex interface).map Object.name := by
    rw [hid, ← hobjects, List.map_map]
    rfl
  have hnew : ∀ object ∈ t.objects (linkFiles path name files).id mutex interface,
      (linkFiles path name files).lookup? object.name = none := fun object hobject =>
    hjoins.lookup?_eq_none hloads.nodup (hdeclared ▸ List.mem_map_of_mem hobject)
  -- a package with more types has the same plan for the interface
  have hextends := Package.extends_foldl_insert (hdeclared ▸ hjoins.nodup) hnew
  refine ⟨_, mutex, interface, Package.ofSources_eq_ok.2 ⟨name, files', hloads', rfl⟩, hlinked, ?_,
    fun object hobject => ⟨?_, hnew object hobject⟩, ?_⟩
  · rw [HookFile.names_objects, HookFile.hookName_of_ofInterface hplan]
  · exact HookFile.isType_of_mem_objects hobject
  · rw [hlinked]
    exact hextends.ofInterface hplan

/-! ### Two packages -/

instance (file : File) (names : List String) : Decidable (file.LeavesFree names) :=
  decidable_of_iff ((∀ n ∈ file.declared, n ∉ names) ∧ ∀ r ∈ file.references, r.name ∉ names)
    ⟨fun h => ⟨h.1, h.2⟩, fun h => ⟨h.declared, h.referred⟩⟩

-- the characters are checked one by one: to decide a statement about all characters can also be to
-- try every character that there is
instance (path : String) : Decidable (PlainPath path) :=
  decidable_of_iff ((path.toList.all fun c => c != '"' && c != '\\' && c != '\n') = true ∧
    Kind.identifier.Writes (PackageId.guessName path))
    ⟨fun h => ⟨fun c hc => by simpa [and_assoc] using List.all_eq_true.1 h.1 c hc, h.2⟩,
      fun h => ⟨List.all_eq_true.2 fun c hc => by simpa [and_assoc] using h.chars c hc, h.name⟩⟩

/-- A package with an interface, and with a type that comes from a dot import. -/
def tapSources : List SourceText := [
  ⟨"tap.go", "package tap\nimport . \"plumbing\"\n" ++
    "type Tap interface \x7b Open(size [4]byte, to ...*Pipe) \x7d\n" ++
    "type Valve struct \x7b from Pipe \x7d"⟩]

/-- A thread-safe hook next to its interface. -/
def tapConfig : Config where
  source := ⟨"./tap", "Tap"⟩
  destination := ⟨"./tap", "Taps"⟩
  threadSafe := true

theorem exists_package_of_tapSources :
    ∃ pkg t, Package.ofSources "example.com/tap" tapSources = .ok pkg ∧
      HookFile.ofInterface pkg "Tap" ⟨"example.com/tap", "tap"⟩ tapConfig = .ok t ∧
      ∃ pkg' mutex interface,
        Package.ofSources "example.com/tap" (⟨"taps.go", t.render⟩ :: tapSources) = .ok pkg' ∧
        pkg' = (t.objects pkg.id mutex interface).foldl Package.insert pkg ∧
        (t.objects pkg.id mutex interface).map Object.name = ["Taps", "hooked", "Cancel"] ∧
        (∀ object ∈ t.objects pkg.id mutex interface, object.kind.isType = true ∧
          pkg.lookup? object.name = none) ∧
        HookFile.ofInterface pkg' "Tap" ⟨"example.com/tap", "tap"⟩ tapConfig = .ok t := by
  obtain ⟨pkg, method, t, hpkg, hmethod, hplan, hcheck⟩ := exists_plan_of_check
    "example.com/tap" "Tap" tapSources ⟨"example.com/tap", "tap"⟩ tapConfig
    (fun pkg _ _ => pkg.objects.all fun object => object.kind.types.all fun type =>
      type.everywhere fun s => match s with
        | .array n _ => decide (Kind.number.Writes n)
        | _ => true) (by decide)
    (by
      simp only [tapSources, List.map_cons, List.map_nil, SourceText.chars, String.toList_append]
      repeat rw [String.toList_ofList]
      decide +kernel)
  have hfiles : ∀ s ∈ tapSources, isIgnored s.text = false → ∀ file,
      parseFile s.name s.text "example.com/tap" = .ok file →
        file.LeavesFree ["Taps", "hooked", "Cancel"] ∧
          ∀ i ∈ file.imports, PlainPath i.package.path :=
    parsed_of_all (by
      simp only [tapSources, List.map_cons, List.map_nil, SourceText.chars, String.toList_append]
      repeat rw [String.toList_ofList]
      decide +kernel)
  have hlengths : ∀ object ∈ pkg.objects, ∀ s ∈ object.kind.types, ∀ n elem,
      s.Has (.array n elem) → IsPlainLength n := by
    intro object hobject s hs n elem hhas
    have htype := List.all_eq_true.1 (List.all_eq_true.1 hcheck object hobject) s hs
    exact ⟨.number, of_decide_eq_true (GoType.everywhere_iff.1 htype _ hhas), rfl⟩
  have hhook : Kind.identifier.Writes "Taps" := by decide
  have hplan : HookFile.ofInterface pkg tapConfig.source.object ⟨"example.com/tap", "tap"⟩
      tapConfig = .ok t := HookFile.ofInterface_eq_ok.2 ⟨method, hmethod, hplan⟩
  have hsources : Package.ofSources "example.com/tap" ([] ++ tapSources) = .ok pkg := hpkg
  exact ⟨pkg, t, hpkg, hplan, exists_package_of_ofInterface hsources hplan rfl hhook hfiles
    hlengths "taps.go"⟩

/-- A package with an interface whose method takes an array with a parenthesis for a length. -/
def gateSources : List SourceText := [
  ⟨"gate.go", "package gate\ntype Gate interface \x7b Open(x [)]int) \x7d"⟩]

/-- A hook next to its interface. -/
def gateConfig : Config where
  source := ⟨"./gate", "Gate"⟩
  destination := ⟨"./gate", "Gates"⟩

/-- The hook of `gateConfig`. -/
def gateHook : HookFile where
  packageName := "gate"
  imports := []
  hookName := "Gates"
  interfaceRef := "Gate"
  methodName := "Open"
  declarationArgs := ["x [)]int"]
  callArgs := ["x"]
  threadSafe := false
  receiver := "h"
  entry := "entry"

/-- A text that is not read as a file. -/
theorem parseFile_ne_ok {text path : String} {cs : List Char} (htext : text.toList = cs)
    (h : ((tokenizeChars cs).toOption.all fun ts => !(contents path ts.list).toBool) = true)
    (file : String) (new : File) : parseFile file text path ≠ .ok new := by
  intro hread
  obtain ⟨ts, c, references, rest, hts, hcontents, -⟩ := parseFile_eq_ok.1 hread
  rw [tokenize_eq_tokenizeChars, htext] at hts
  rw [hts] at h
  simp only [Except.toOption, Option.all_some, hcontents] at h
  cases h

/-- The file of `gateHook` cannot be read: behind the parenthesis its last method is over. -/
theorem parseFile_gateHook (file : String) (new : File) :
    parseFile file gateHook.render "m/gate" ≠ .ok new := by
  have htext : gateHook.render.toList = _ := toList_unlines gateHook.lines
  simp only [gateHook, HookFile.lines, HookFile.header, HookFile.importLines,
    HookFile.fileImports, HookFile.typeLines, HookFile.appendLines, HookFile.methodLine,
    HookFile.lockLines, HookFile.removeLines, HookFile.forwardLines, Ascending.ofList,
    List.foldl_nil, List.isEmpty_nil, Bool.false_eq_true, if_true, if_false,
    String.intercalate_singleton, String.toList_append, String.toList_empty,
    List.flatMap_cons, List.flatMap_nil, List.cons_append, List.nil_append, List.append_nil] at htext
  repeat rw [String.toList_ofList] at htext
  exact parseFile_ne_ok htext (by decide +kernel) file new

theorem not_ofSources_gateSources :
    ∃ pkg t, Package.ofSources "m/gate" gateSources = .ok pkg ∧
      HookFile.ofInterface pkg gateConfig.source.object ⟨"m/gate", "gate"⟩ gateConfig = .ok t ∧
      Kind.identifier.Writes gateConfig.destination.hookName ∧
      (∀ s ∈ gateSources, isIgnored s.text = false → ∀ file,
        parseFile s.name s.text "m/gate" = .ok file →
          file.LeavesFree [gateConfig.destination.hookName, "hooked", "Cancel"] ∧
            file.imports = []) ∧
      (∀ object ∈ pkg.objects, ∀ s ∈ object.kind.types, ∀ n elem, s.Has (.array n elem) →
        ∃ kind : Kind, kind.Writes n) ∧
      ∀ file pkg', Package.ofSources "m/gate" (gateSources ++ [⟨file, t.render⟩]) ≠ .ok pkg' := by
  obtain ⟨pkg, method, t, hpkg, hmethod, hplan, hcheck⟩ := exists_plan_of_check
    "m/gate" "Gate" gateSources ⟨"m/gate", "gate"⟩ gateConfig
    (fun pkg _ t => decide (t = gateHook) && pkg.objects.all fun object =>
      object.kind.types.all fun type => type.everywhere fun s => match s with
        | .array n _ => decide (Kind.rightParen.Writes n)
        | _ => true) (by decide)
    (by
      simp only [gateSources, List.map_cons, List.map_nil, SourceText.chars]
      repeat rw [String.toList_ofList]
      decide +kernel)
  obtain ⟨hhook, hlengths⟩ := Bool.and_eq_true_iff.1 hcheck
  obtain rfl : t = gateHook := of_decide_eq_true hhook
  have hfiles : ∀ s ∈ gateSources, isIgnored s.text = false → ∀ file,
      parseFile s.name s.text "m/gate" = .ok file →
        file.LeavesFree [gateConfig.destination.hookName, "hooked", "Cancel"] ∧
          file.imports = [] :=
    parsed_of_all (by
      simp only [gateSources, List.map_cons, List.map_nil, SourceText.chars]
      repeat rw [String.toList_ofList]
      decide +kernel)
  refine ⟨pkg, gateHook, hpkg, HookFile.ofInterface_eq_ok.2 ⟨method, hmethod, hplan⟩,
    by decide, hfiles, ?_, fun file pkg' hpkg' => ?_⟩
  · intro object hobject s hs n elem hhas
    have htype := List.all_eq_true.1 (List.all_eq_true.1 hlengths object hobject) s hs
    exact ⟨.rightParen, of_decide_eq_true (GoType.everywhere_iff.1 htype _ hhas)⟩
  · obtain ⟨name, files, hloads, -⟩ := Package.ofSources_eq_ok.1 hpkg'
    have hignored : isIgnored gateHook.render = false :=
      HookFile.isIgnored_render (by decide)
    obtain ⟨new, -, hread⟩ := hloads.parsed (List.mem_append_right _ List.mem_cons_self) hignored
    exact parseFile_gateHook file new hread

end Multicast
