import Multicast.Package.Underlying
import Multicast.Proofs.Linking
import Multicast.Proofs.Pieces

/-!
# A loaded package is closed

In a package that was loaded, every own declared type that a declared type mentions is itself
declared as a type. This is checked on references, not on types, so two things have to come
together: the references of a file are the own names its types mention (`File.Sound`), and the names
that the package does not declare are moved to a dot import wherever they occur (`settles_owner`).

It follows that what a type stands for is never missing for want of an own declaration.

## Where a name without a qualifier belongs

A file says of such a name where it stands, but not where it is declared. Linking settles this for all
files of a package at once: a name that the package declares as a type is its own, and one that it does
not declare belongs to the dot import of the file that mentions it, if the file has exactly one. If there
is none, or more than one, loading fails. So in a package that was loaded every name has an owner
(`File.owner`), and the types of its files are the types that were read with their names moved to the
owners (`Loads.resolvedObject_eq`).

The hypothesis is that no file imports the path of its own package. Types of an import are kept under its
path, and with such an import they could not be told from the package's own.
-/

namespace Multicast

open Source Syntax

section

variable {path name : String} {files : List File} {sources : List SourceText} {file : File}

/-- No file imports the path of its own package. -/
def Apart (path : String) (files : List File) : Prop :=
  ∀ file ∈ files, ∀ i ∈ file.imports, i.package.path ≠ path

/-- The package that a file finds a name in that is written without a qualifier: its own one, or
that of its only dot import if the files of its own package do not declare the name. -/
def Syntax.File.owner (own : PackageId) (scope : List Declaration) (file : File) (n : String) : PackageId :=
  match declaredAsType? scope n, dotImports file with
  | none, [dot] => dot
  | _, _ => own

/-- The own names of a type moved to the packages that own them. -/
def settledBy (own : PackageId) (owner : String → PackageId) (type : GoType) : GoType :=
  type.relocate fun package n => if package = own then owner n else package

/-- A reference is to a declared type, or to a name of the only dot import. -/
theorem Loads.declared_or_dot (h : Loads path sources name files) (hfile : file ∈ files) {n : String}
    (hn : n ∈ file.references.map Reference.name) :
    declaredAsType? (declarationsOf files) n = some true ∨
      declaredAsType? (declarationsOf files) n = none ∧ ∃ dot, dotImports file = [dot] := by
  obtain ⟨r, hr, rfl⟩ := List.mem_map.1 hn
  have hflaws : referenceFlaws (declarationsOf files) file = [] := by
    have hall := (List.append_eq_nil_iff.1 h.linked).2
    exact List.flatMap_eq_nil_iff.1 hall file hfile
  have hcause := List.filterMap_eq_nil_iff.1 hflaws r hr
  rw [Option.map_eq_none_iff] at hcause
  unfold referenceCause? at hcause
  rcases hdeclared : declaredAsType? (declarationsOf files) r.name with _ | _ | _
  · rw [hdeclared] at hcause
    rcases hdots : dotImports file with _ | ⟨dot, _ | _⟩
    · simp [hdots] at hcause
    · exact .inr ⟨rfl, dot, rfl⟩
    · simp [hdots] at hcause
  · simp [hdeclared] at hcause
  · exact .inl rfl

theorem Loads.scope_eq (h : Loads path sources name files) (hfile : file ∈ files) :
    file.scope path = ⟨⟨path, name⟩, file.imports⟩ := by
  rw [File.scope, h.package file hfile]

theorem Apart.foreign (hapart : Apart path files) (hfile : file ∈ files) :
    (file.scope path).Foreign := by
  intro i hi heq
  exact hapart file hfile i hi (congrArg PackageId.path heq)

/-- The own declared types that a type of a file mentions are references of the file. -/
theorem Loads.mem_references (h : Loads path sources name files) (hapart : Apart path files)
    (hfile : file ∈ files) {type : GoType} (htype : type ∈ file.types) {n : String}
    (hn : type.Has (.named ⟨path, name⟩ n)) : n ∈ file.references.map Reference.name := by
  have hmentions := ((h.sound hfile).types.mentions (hapart.foreign hfile) n).1
  rw [h.scope_eq hfile] at hmentions
  have hmem := hmentions ⟨type, htype, hn⟩
  simpa [Mentions] using hmem

/-- The types of a file are made of own declared types and imported ones. -/
theorem Loads.admits (h : Loads path sources name files) (hfile : file ∈ files) {type : GoType}
    (htype : type ∈ file.types) {package : PackageId} {n : String}
    (hn : type.Has (.named package n)) :
    package = ⟨path, name⟩ ∧ n ∉ predeclared ∨
      ∃ i ∈ file.imports, i.localName?.isSome ∧ i.package = package := by
  have hproper := (h.sound hfile).types.wellFormed (by simp) type htype _ hn
  rw [h.scope_eq hfile] at hproper
  exact hproper.2

theorem mem_imports_of_dot {dot : PackageId} (h : dotImports file = [dot]) :
    ∃ i ∈ file.imports, i.package = dot := by
  have hmem : dot ∈ dotImports file := h ▸ List.mem_singleton.2 rfl
  obtain ⟨i, hi, rfl⟩ := List.mem_map.1 hmem
  exact ⟨i, (List.mem_filter.1 hi).1, rfl⟩

/-- **Where a name comes from**: the own package declares it as a type, or else it belongs to the
only dot import of the file. -/
theorem Loads.owner_cases (h : Loads path sources name files) (hapart : Apart path files)
    (hfile : file ∈ files) {n : String} (hn : n ∈ file.references.map Reference.name) :
    (file.owner ⟨path, name⟩ (declarationsOf files) n = ⟨path, name⟩ ∧
      declaredAsType? (declarationsOf files) n = some true) ∨
    (dotImports file = [file.owner ⟨path, name⟩ (declarationsOf files) n] ∧
      declaredAsType? (declarationsOf files) n = none ∧
      (file.owner ⟨path, name⟩ (declarationsOf files) n).path ≠ path) := by
  rcases h.declared_or_dot hfile hn with htype | ⟨hnone, dot, hdot⟩
  · refine .inl ⟨?_, htype⟩
    rw [File.owner, htype]
  · have howner : file.owner ⟨path, name⟩ (declarationsOf files) n = dot := by
      rw [File.owner, hnone, hdot]
    obtain ⟨i, hi, hpackage⟩ := mem_imports_of_dot hdot
    rw [howner]
    exact .inr ⟨hdot, hnone, hpackage ▸ hapart file hfile i hi⟩

/-- **The types of a file are settled name by name**: every own name moves to its owner, wherever
it occurs. -/
theorem Loads.resolvedObject_eq (h : Loads path sources name files) (hapart : Apart path files)
    (hfile : file ∈ files) {d : Declaration} (hd : d ∈ file.declarations) {type : GoType}
    {isAlias : Bool} (hkind : d.object.kind = .type type isAlias) :
    resolvedObject path (declarationsOf files) file d.object = ⟨d.object.name,
      .type (settledBy ⟨path, name⟩ (file.owner ⟨path, name⟩ (declarationsOf files)) type)
        isAlias⟩ := by
  have htype : type ∈ file.types := List.mem_flatMap.2 ⟨d, hd, by simp [hkind, ObjectKind.types]⟩
  -- the own package is told from the imported ones by its path
  have hown {package : PackageId} {n : String} (hn : type.Has (.named package n)) :
      package.path = path ↔ package = ⟨path, name⟩ := by
    rcases h.admits hfile htype hn with ⟨rfl, -⟩ | ⟨i, hi, -, rfl⟩
    · simp
    · have hne := hapart file hfile i hi
      refine ⟨fun heq => absurd heq hne, fun heq => ?_⟩
      rw [heq]
  have hmem {n : String} (hn : type.Has (.named ⟨path, name⟩ n)) :=
    h.mem_references hapart hfile htype hn
  rw [resolvedObject]
  split
  next dot type' isAlias' hdot hkind' =>
    obtain ⟨rfl, rfl⟩ : type' = type ∧ isAlias' = isAlias := by
      rw [hkind] at hkind'
      cases hkind'
      exact ⟨rfl, rfl⟩
    dsimp only
    rw [settledBy, GoType.relocate_congr fun package n hn => ?_]
    by_cases hpackage : package = ⟨path, name⟩
    · subst hpackage
      have hreference := hmem hn
      rw [if_pos rfl, Syntax.File.owner, hdot]
      cases hdeclared : declaredAsType? (declarationsOf files) n with
      | none => rw [if_pos ⟨rfl, List.mem_filter.2 ⟨hreference, by rw [hdeclared]; rfl⟩⟩]
      | some isType =>
        rw [if_neg]
        rintro ⟨-, hborrowed⟩
        simp [hdeclared] at hborrowed
    · rw [if_neg hpackage, if_neg fun hboth => hpackage ((hown hn).1 hboth.1)]
  next hnot =>
    have hself : settledBy ⟨path, name⟩ (file.owner ⟨path, name⟩ (declarationsOf files)) type =
        type := by
      refine GoType.relocate_eq_self fun package n hn => ?_
      by_cases hpackage : package = ⟨path, name⟩
      · subst hpackage
        rw [if_pos rfl]
        rcases h.owner_cases hapart hfile (hmem hn) with ⟨howner, -⟩ | ⟨hdot, -⟩
        · exact howner
        · exact absurd hkind (hnot _ _ _ hdot)
      · rw [if_neg hpackage]
    rw [hself, ← hkind]

end

/-! ### Closed packages -/

namespace Package

/-- A name is declared as a type, be it one that can be described or not. -/
def DeclaresType (pkg : Package) (n : String) : Prop :=
  ∃ found, pkg.lookup? n = some found ∧ found.kind.isType

/-- A type mentions declared types of the package, and other types by an import path. -/
def Settles (pkg : Package) (type : GoType) : Prop :=
  ∀ package n, type.Has (.named package n) →
    if package = pkg.id then pkg.DeclaresType n else package.path ≠ ""

/-- All types of a package are settled. -/
def Closed (pkg : Package) : Prop :=
  ∀ object ∈ pkg.objects, ∀ type ∈ object.kind.types, pkg.Settles type

/-- **In a closed package a type is never missing**: if a type cannot be followed since a name is
not declared, the name belongs to another package. -/
theorem Closed.unresolved {pkg : Package} (hclosed : pkg.Closed) {type : GoType}
    (htype : pkg.Settles type) {seen : List String} {missing : String}
    (h : pkg.underlyingFrom seen type = .error (.unresolved missing)) :
    ∃ package n, package ≠ pkg.id ∧ package.path ≠ "" ∧
      missing = (GoType.named package n).canonical := by
  fun_induction pkg.underlyingFrom seen type with
  | case2 seen n _ other declared isAlias hlookup ih =>
    have hname : other = n := by simpa using List.find?_some hlookup
    subst hname
    have hobject : ⟨other, .type declared isAlias⟩ ∈ pkg.objects := find?_objects.2 hlookup
    exact ih (hclosed _ hobject declared (List.mem_singleton.2 rfl)) h
  | case4 seen n _ htyped hunsupported =>
    -- the name is declared as a type, so the search does not end here
    have hdeclared := htype pkg.id n (.self _)
    rw [if_pos rfl] at hdeclared
    obtain ⟨⟨other, kind⟩, hlookup, hkind⟩ := hdeclared
    cases kind with
    | type declared isAlias => exact absurd hlookup (htyped _ _ _)
    | unsupported reason => exact absurd hlookup (hunsupported _ _)
    | func | var | const => cases hkind
  | case5 seen package n hpackage =>
    have hforeign := htype package n (.self _)
    rw [if_neg hpackage] at hforeign
    cases h
    exact ⟨package, n, hpackage, hforeign, rfl⟩
  | case1 | case3 | case6 | case7 | case8 | case9 => cases h

/-- The canonical name of a type of another package is not a name. -/
theorem not_writes_canonical {package : PackageId} (h : package.path ≠ "") (n : String) :
    ¬Kind.identifier.Writes (GoType.named package n).canonical := by
  refine not_writes_of_dot ?_
  have htext : (GoType.named package n).canonical = package.path ++ "." ++ n := by
    change qualify package.path n = _
    simp [qualify, h]
  simp [htext]

end Package

section

variable {path name : String} {files : List File} {sources : List SourceText}

theorem Loads.declaresType_iff (h : Loads path sources name files) {n : String} :
    (linkFiles path name files).DeclaresType n ↔
      declaredAsType? (declarationsOf files) n = some true := by
  rw [declaredAsType?_eq h.nodup n, Package.DeclaresType, Option.map_eq_some_iff]

/-- **A loaded package is closed.** -/
theorem Loads.closed (h : Loads path sources name files) (hapart : Apart path files) :
    (linkFiles path name files).Closed := by
  intro object hobject linked hlinked package n hn
  rw [id_linkFiles]
  obtain ⟨file, hfile, d, hd, -, hobject⟩ :=
    (lookup?_linkFiles h.nodup).1 (Package.find?_objects.1 hobject)
  have hpath {i : Import} (hi : i ∈ file.imports) : i.package.path ≠ "" :=
    ((h.sound hfile).imports i hi).path
  cases hkind : d.object.kind with
  | type type isAlias =>
    have htype : type ∈ file.types := List.mem_flatMap.2 ⟨d, hd, by simp [hkind, ObjectKind.types]⟩
    rw [hobject, h.resolvedObject_eq hapart hfile hd hkind] at hlinked
    obtain rfl := List.mem_singleton.1 hlinked
    obtain ⟨before, hbefore, hmoved⟩ := GoType.has_relocate_named.1 hn
    by_cases hown : before = ⟨path, name⟩
    · subst hown
      rw [if_pos rfl] at hmoved
      have hreference := h.mem_references hapart hfile htype hbefore
      rcases h.owner_cases hapart hfile hreference with ⟨howner, htrue⟩ | ⟨hdot, -, hne⟩
      · rw [if_pos (hmoved.symm.trans howner)]
        exact h.declaresType_iff.2 htrue
      · rw [hmoved] at hdot hne
        obtain ⟨i, hi, rfl⟩ := mem_imports_of_dot hdot
        rw [if_neg fun heq => hne (congrArg PackageId.path heq)]
        exact hpath hi
    · rw [if_neg hown] at hmoved
      subst hmoved
      rw [if_neg hown]
      rcases h.admits hfile htype hbefore with ⟨heq, -⟩ | ⟨i, hi, -, rfl⟩
      · exact absurd heq hown
      · exact hpath hi
  | unsupported | func | var | const =>
    rw [hobject, resolvedObject] at hlinked
    split at hlinked
    next hkind' => cases hkind.symm.trans hkind'
    next =>
      rw [hkind] at hlinked
      cases hlinked

/-- **A package that loads is closed.** Unless a file imports the path of its own package,

* every own declared type that occurs in a declared type is declared as a type;
* in each file that counts, the own names of a type as it is written move to their owners, wherever
  they occur: to the package itself if it declares them as types, and to the only dot import of the
  file if it does not declare them;
* following an own declared type that occurs never ends at a name that the package lacks. -/
theorem closed_of_ofSources {pkg : Package} (h : Package.ofSources path sources = .ok pkg)
    (hapart : ∀ s ∈ sources, isIgnored s.text = false → ∀ file,
      parseFile s.name s.text path = .ok file → ∀ i ∈ file.imports, i.package.path ≠ path) :
    (∀ object ∈ pkg.objects, ∀ type ∈ object.kind.types, ∀ n,
      type.Has (.named pkg.id n) → pkg.DeclaresType n) ∧
    (∀ s ∈ sources, isIgnored s.text = false → ∃ file, parseFile s.name s.text path = .ok file ∧
      ∃ owner : String → PackageId, ∀ d ∈ file.declarations, ∀ type isAlias,
        d.object.kind = .type type isAlias →
          pkg.lookup? d.object.name =
            some ⟨d.object.name, .type (settledBy pkg.id owner type) isAlias⟩ ∧
          ∀ n, type.Has (.named pkg.id n) →
            owner n = pkg.id ∧ pkg.DeclaresType n ∨
              pkg.lookup? n = none ∧ dotImports file = [owner n]) ∧
    (∀ object ∈ pkg.objects, ∀ type ∈ object.kind.types, ∀ n, type.Has (.named pkg.id n) →
      ∀ missing, pkg.underlying (.named pkg.id n) = .error (.unresolved missing) →
        ¬Kind.identifier.Writes missing ∧ ∃ package m, package ≠ pkg.id ∧
          missing = (GoType.named package m).canonical) := by
  obtain ⟨name, files, hloads, rfl⟩ := Package.ofSources_eq_ok.1 h
  have hfiles : Apart path files := hloads.of_sources hapart
  have hclosed := hloads.closed hfiles
  rw [id_linkFiles]
  refine ⟨fun object hobject type htype n hn => ?_, fun s hs hcounts => ?_,
    fun object hobject type htype n hn missing hmissing => ?_⟩
  · have hsettled := hclosed object hobject type htype _ n hn
    rwa [if_pos (id_linkFiles ..).symm] at hsettled
  · obtain ⟨file, hfile, hok⟩ := hloads.parsed hs hcounts
    refine ⟨file, hok, file.owner ⟨path, name⟩ (declarationsOf files),
      fun d hd type isAlias hkind => ⟨?_, fun n hn => ?_⟩⟩
    · rw [← hloads.resolvedObject_eq hfiles hfile hd hkind]
      exact (lookup?_linkFiles hloads.nodup).2 ⟨file, hfile, d, hd, rfl, rfl⟩
    -- a name in a type as it is written was referred to, so it has an owner
    · have htype : type ∈ file.types :=
        List.mem_flatMap.2 ⟨d, hd, by simp [hkind, ObjectKind.types]⟩
      refine (hloads.owner_cases hfiles hfile
        (hloads.mem_references hfiles hfile htype hn)).imp ?_ ?_
      · rintro ⟨howner, htrue⟩
        exact ⟨howner, hloads.declaresType_iff.2 htrue⟩
      · rintro ⟨hdot, hnone, -⟩
        rw [declaredAsType?_eq hloads.nodup n, Option.map_eq_none_iff] at hnone
        exact ⟨hnone, hdot⟩
  -- the chain begins at a single name, which is settled as it occurs in a declared type
  · have hsettled : (linkFiles path name files).Settles (.named ⟨path, name⟩ n) := by
      intro package m hm
      rcases GoType.has_iff.1 hm with heq | ⟨c, hc, -⟩
      · cases heq
        exact hclosed object hobject type htype _ n hn
      · cases hc
    obtain ⟨package, m, hne, hpath, rfl⟩ := hclosed.unresolved hsettled hmissing
    exact ⟨Package.not_writes_canonical hpath m, package, m, id_linkFiles path name files ▸ hne, rfl⟩

end

/-- Two files that mention each other's types, and one of a dot import. -/
def chainSources : List SourceText := [
  ⟨"link.go", "package chain\nimport . \"example.com/base\"\n" ++
    "type Link struct \x7b to *End; of []Metal \x7d"⟩,
  ⟨"end.go", "package chain\ntype End map[string]Link"⟩]

theorem exists_package_of_chainSources :
    ∃ pkg, Package.ofSources "example.com/chain" chainSources = .ok pkg := by
  have hloads : (Package.ofChars? "example.com/chain"
      (chainSources.map SourceText.chars)).isSome = true := by
    simp only [chainSources, List.map_cons, List.map_nil, SourceText.chars, String.toList_append]
    repeat rw [String.toList_ofList]
    decide +kernel
  obtain ⟨pkg, hpkg⟩ := Option.isSome_iff_exists.1 hloads
  exact ⟨pkg, Package.ofSources_of_chars hpkg⟩

theorem closed_of_chainSources :
    ∃ pkg, Package.ofSources "example.com/chain" chainSources = .ok pkg ∧
      ∀ object ∈ pkg.objects, ∀ type ∈ object.kind.types, ∀ n,
        type.Has (.named pkg.id n) → pkg.DeclaresType n := by
  obtain ⟨pkg, hpkg⟩ := exists_package_of_chainSources
  have himports : ∀ s ∈ chainSources, isIgnored s.text = false → ∀ file,
      parseFile s.name s.text "example.com/chain" = .ok file →
        ∀ i ∈ file.imports, i.package.path ≠ "example.com/chain" :=
    parsed_of_all (by
      simp only [chainSources, List.map_cons, List.map_nil, SourceText.chars, String.toList_append]
      repeat rw [String.toList_ofList]
      decide +kernel)
  refine ⟨pkg, hpkg, (closed_of_ofSources hpkg fun s hs hcounts file hfile i hi => ?_).1⟩
  exact himports s hs hcounts file hfile i hi

end Multicast
