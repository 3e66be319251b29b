import Multicast.Package.Loading
import Multicast.Proofs.Evaluation
import Multicast.Proofs.FileYields

/-!
# What a loaded package consists of

A package loads exactly if all its files can be read, give one package name, and have no flaws
between them (`Package.ofSources_eq_ok`). Then no name is declared twice, so the package looks up a
name as the declaration of it, with the types settled (`lookup?_linkFiles`), whatever the order of
the files.

## Flaws between files

Loading collects the flaws of all files and those between them, and a package comes out only if there are
none. Turned around, this gives three facts on the files of a package: no name is declared twice, among
all files; no reference is to a name that is declared as something else than a type; and a name that is
not declared has one dot import to come from. `Loads` holds them, and most of what is proved about loaded
packages begins with it.

Objects are inserted one by one, and an insertion would replace an object of the same name. With names
declared once it never does, and the package looks up exactly what its files declare.
-/

namespace Multicast

open Source Syntax

/-! ### Ascending lists -/

namespace Ascending

variable {α : Type} {key : α → String}

/-- Of the elements with one key the last is found. -/
theorem find?_foldl_insert (xs ys : List α) (k : String) :
    (xs.foldl (fun ys x => insert key x ys) ys).find? (key · = k) =
      (xs.reverse.find? (key · = k)).or (ys.find? (key · = k)) := by
  induction xs generalizing ys with
  | nil => rfl
  | cons x xs ih =>
    rw [List.foldl_cons, ih, find?_insert, List.reverse_cons, List.find?_append]
    cases xs.reverse.find? (key · = k) with
    | some y => rfl
    | none => by_cases hx : key x = k <;> simp [hx]

theorem ofList_eq_singleton {names : List String} {name : String} :
    ofList (fun n => n) names = [name] ↔ names ≠ [] ∧ ∀ n ∈ names, n = name := by
  constructor
  · intro h
    refine ⟨?_, fun n hn => ?_⟩
    · rintro rfl
      cases h
    · have hfound : List.find? (· = n) _ = _ := find?_foldl_insert names [] n
      rw [← ofList, h] at hfound
      by_contra hne
      have hnone : names.reverse.find? (· = n) = none := by
        simpa [Ne.symm hne] using hfound.symm
      simpa using List.find?_eq_none.1 hnone n (List.mem_reverse.2 hn)
  · rintro ⟨hne, hall⟩
    obtain ⟨first, rest, rfl⟩ := List.exists_cons_of_ne_nil hne
    obtain rfl := hall first List.mem_cons_self
    have hrest : ∀ n ∈ rest, n = first := fun n hn => hall n (List.mem_cons_of_mem _ hn)
    rw [ofList, List.foldl_cons]
    clear hne hall
    induction rest with
    | nil => rfl
    | cons n rest ih =>
      obtain rfl := hrest n List.mem_cons_self
      simpa [insert] using ih fun m hm => hrest m (List.mem_cons_of_mem _ hm)

end Ascending

/-- In a list with each key once, an element is found by its key. -/
theorem find?_eq_some_of_nodup {α : Type} {key : α → String} {xs : List α}
    (h : (xs.map key).Nodup) {k : String} {x : α} :
    xs.find? (key · = k) = some x ↔ x ∈ xs ∧ key x = k := by
  constructor
  · exact fun hx => ⟨List.mem_of_find?_eq_some hx, by simpa using List.find?_some hx⟩
  · rintro ⟨hx, rfl⟩
    induction xs with
    | nil => cases hx
    | cons y ys ih =>
      rw [List.map_cons, List.nodup_cons] at h
      rcases List.mem_cons.1 hx with rfl | hx
      · simp
      · have hne : key y ≠ key x := fun heq => h.1 (heq ▸ List.mem_map_of_mem hx)
        simpa [hne] using ih h.2 hx

namespace Package

/-- Objects of a package have different names. -/
theorem nodup_names (pkg : Package) : pkg.names.Nodup := by
  have hsorted : pkg.objects.Pairwise fun x y => x.name < y.name := pkg.sorted
  refine List.pairwise_map.2 (hsorted.imp fun {x y} hlt heq => ?_)
  rw [heq] at hlt
  exact String.lt_irrefl _ hlt

theorem find?_objects {pkg : Package} {object : Object} :
    object ∈ pkg.objects ↔ pkg.lookup? object.name = some object := by
  rw [lookup?, find?_eq_some_of_nodup pkg.nodup_names]
  simp

end Package

/-! ### Names that are declared once -/

theorem redeclarations_eq_nil {file : String} {seen : List String} {ds : List Declaration} :
    redeclarations file seen ds = [] ↔
      (ds.map (·.object.name)).Nodup ∧ ∀ d ∈ ds, d.object.name ∉ seen := by
  induction ds generalizing seen with
  | nil => simp [redeclarations]
  | cons d ds ih =>
    rw [redeclarations]
    split
    next hseen => simp [hseen]
    next hseen =>
      rw [ih, List.map_cons, List.nodup_cons]
      simp only [List.mem_cons, not_or, List.mem_map, forall_eq_or_imp]
      constructor
      · rintro ⟨hnodup, hnew⟩
        refine ⟨⟨?_, hnodup⟩, hseen, fun e he => (hnew e he).2⟩
        rintro ⟨e, he, heq⟩
        exact (hnew e he).1 heq
      · rintro ⟨⟨hnew, hnodup⟩, -, hothers⟩
        exact ⟨hnodup, fun e he => ⟨fun heq => hnew ⟨e, he, heq⟩, hothers e he⟩⟩

/-- The names that files declare. -/
def declaredNames (files : List File) : List String :=
  files.flatMap fun file => file.declarations.map (·.object.name)

theorem allRedeclarations_eq_nil {seen : List String} {files : List File} :
    allRedeclarations seen files = [] ↔
      (declaredNames files).Nodup ∧ ∀ n ∈ declaredNames files, n ∉ seen := by
  induction files generalizing seen with
  | nil => simp [allRedeclarations, declaredNames]
  | cons file files ih =>
    rw [allRedeclarations, List.append_eq_nil_iff, redeclarations_eq_nil, ih]
    simp only [declaredNames, List.flatMap_cons, List.nodup_append, List.mem_append, not_or]
    constructor
    · rintro ⟨⟨hnodup, hnew⟩, hnodup', hnew'⟩
      refine ⟨⟨hnodup, hnodup', fun n hn m hm heq => ?_⟩, fun n hn => ?_⟩
      · exact (hnew' m hm).2 (heq ▸ hn)
      · rcases hn with hn | hn
        · obtain ⟨d, hd, rfl⟩ := List.mem_map.1 hn
          exact hnew d hd
        · exact (hnew' n hn).1
    · rintro ⟨⟨hnodup, hnodup', hdisjoint⟩, hnew⟩
      refine ⟨⟨hnodup, fun d hd => hnew _ (.inl (List.mem_map_of_mem hd))⟩, hnodup', fun n hn => ?_⟩
      exact ⟨hnew n (.inr hn), fun hmem => hdisjoint n hmem n hn rfl⟩

/-! ### Results -/

section

variable {ε α : Type}

theorem partitionResults_ok (as : List α) :
    partitionResults (as.map (Except.ok : α → Except ε α)) = ([], as) := by
  induction as with
  | nil => rfl
  | cons a as ih => rw [List.map_cons, partitionResults, ih]

theorem eq_ok_of_partitionResults {results : List (Except ε α)} {as : List α}
    (h : partitionResults results = ([], as)) : results = as.map Except.ok := by
  induction results generalizing as with
  | nil =>
    cases h
    rfl
  | cons result results ih =>
    cases result with
    | error e => cases h
    | ok a =>
      rw [partitionResults] at h
      obtain ⟨hnone, rfl⟩ := Prod.mk.inj h
      rw [List.map_cons, ← ih (Prod.ext hnone rfl)]

end

/-! ### Loading -/

/-- **Files of a package**: the sources that count are read as these files, all of which give one
package name, and there is no flaw between them. -/
structure Loads (path : String) (sources : List SourceText) (name : String) (files : List File) :
    Prop where
  read : ((sources.filter fun s => !isIgnored s.text).map fun s => parseFile s.name s.text path) =
    files.map Except.ok
  exist : files ≠ []
  package : ∀ file ∈ files, file.package = name
  linked : linkFlaws files = []

/-- Every source that counts is read. -/
theorem Loads.parsed {path name : String} {sources : List SourceText} {files : List File}
    (h : Loads path sources name files) {s : SourceText} (hs : s ∈ sources)
    (hcounts : isIgnored s.text = false) :
    ∃ file ∈ files, parseFile s.name s.text path = .ok file := by
  have hmem : s ∈ sources.filter fun s => !isIgnored s.text :=
    List.mem_filter.2 ⟨hs, by simp [hcounts]⟩
  have hread : parseFile s.name s.text path ∈ files.map Except.ok :=
    h.read ▸ List.mem_map.2 ⟨s, hmem, rfl⟩
  obtain ⟨file, hfile, hok⟩ := List.mem_map.1 hread
  exact ⟨file, hfile, hok.symm⟩

/-- Files that are read from sources of which something is known. -/
theorem Loads.of_sources {path name : String} {sources : List SourceText} {files : List File}
    (h : Loads path sources name files) {P : File → Prop}
    (hsources : ∀ s ∈ sources, isIgnored s.text = false → ∀ file,
      parseFile s.name s.text path = .ok file → P file) : ∀ file ∈ files, P file := by
  intro file hfile
  have hmem : Except.ok file ∈ files.map (Except.ok : File → Except Diagnostic File) :=
    List.mem_map_of_mem hfile
  rw [← h.read] at hmem
  obtain ⟨s, hs, hok⟩ := List.mem_map.1 hmem
  obtain ⟨hs, hcounts⟩ := List.mem_filter.1 hs
  exact hsources s hs (by simpa using hcounts) file hok

/-- The package names of sources that are read as files. -/
theorem map_parsePackageName {path : String} {sources : List SourceText} {files : List File}
    (h : (sources.map fun s => parseFile s.name s.text path) = files.map Except.ok) :
    (sources.map fun s => parsePackageName s.name s.text) =
      (files.map File.package).map Except.ok := by
  induction sources generalizing files with
  | nil =>
    obtain rfl : files = [] := by simpa using h.symm
    rfl
  | cons s sources ih =>
    obtain ⟨file, files, rfl⟩ : ∃ f fs, files = f :: fs := by
      cases files with
      | nil => cases h
      | cons f fs => exact ⟨f, fs, rfl⟩
    obtain ⟨hfile, hfiles⟩ := List.cons_eq_cons.1 h
    rw [List.map_cons, parsePackageName_of_parseFile hfile, ih hfiles]
    rfl

/-- **A package loads** exactly if its sources are read as files of a package, and then it is put
together from these files. -/
theorem Package.ofSources_eq_ok {path : String} {sources : List SourceText} {pkg : Package} :
    Package.ofSources path sources = .ok pkg ↔
      ∃ name files, Loads path sources name files ∧ pkg = linkFiles path name files := by
  rw [ofSources, ofSourcesIn]
  constructor
  · intro h
    obtain ⟨⟨errors, names⟩, hnames⟩ : ∃ r, partitionResults
      ((sources.filter fun s => !isIgnored s.text).map fun s =>
        parsePackageName s.name s.text) = r := ⟨_, rfl⟩
    obtain ⟨⟨errors', files⟩, hfiles⟩ : ∃ r, partitionResults
      ((sources.filter fun s => !isIgnored s.text).map fun s =>
        parseFile s.name s.text path) = r := ⟨_, rfl⟩
    simp only [hnames, hfiles] at h
    split at h
    next => cases h
    next hok =>
      obtain rfl : errors = [] := by simpa using hok
      split at h
      next => cases h
      next name hname =>
        split at h
        next hflaws =>
          obtain ⟨rfl, hlinked⟩ : errors' = [] ∧ linkFlaws files = [] := by simpa using hflaws
          have hread := eq_ok_of_partitionResults hfiles
          rw [map_parsePackageName hread, partitionResults_ok] at hnames
          obtain rfl := (Prod.mk.inj hnames).2
          obtain ⟨hexist, hall⟩ := Ascending.ofList_eq_singleton.1 hname
          exact ⟨name, files, ⟨hread, by simpa using hexist, by simpa using hall, hlinked⟩,
            (Except.ok.inj h).symm⟩
        next => cases h
      next => cases h
  · rintro ⟨name, files, hloads, rfl⟩
    have hnames := map_parsePackageName hloads.read
    have hsingle : Ascending.ofList (fun n => n) (files.map File.package) = [name] := by
      refine Ascending.ofList_eq_singleton.2 ⟨by simpa using hloads.exist, ?_⟩
      simpa using hloads.package
    dsimp only
    rw [hnames, hloads.read, partitionResults_ok, partitionResults_ok]
    simp [hsingle, hloads.linked]

/-- Where its sources are found does not matter to a package that loads. -/
theorem Package.ofSourcesIn_place {place place' path : String} {sources : List SourceText}
    {pkg : Package} (h : Package.ofSourcesIn place path sources = .ok pkg) :
    Package.ofSourcesIn place' path sources = .ok pkg := by
  rw [ofSourcesIn] at h ⊢
  dsimp only at h ⊢
  split at h
  · cases h
  next hread =>
    rw [if_neg hread]
    split at h
    · cases h
    · exact h
    · cases h

/-! ### Packages of fixed texts

Loading a fixed text can be evaluated. Its sources are then given by their characters, for which
everything that reads a text has a version. -/

/-- The name of a source and the characters of its text. -/
def SourceText.chars (s : SourceText) : String × List Char :=
  (s.name, s.text.toList)

/-- The file that is read from these characters, if one is. -/
def File.ofChars? (path name : String) (cs : List Char) : Option File :=
  (tokenizeChars cs).toOption.bind fun ts => (contents path ts.list).toOption.map fun parsed =>
    ⟨name, parsed.value.package, parsed.value.imports, parsed.value.declarations, parsed.references⟩

theorem toOption_parseFile (name text path : String) :
    (parseFile name text path).toOption = File.ofChars? path name text.toList := by
  rw [parseFile, readText, File.ofChars?, tokenize_eq_tokenizeChars]
  cases tokenizeChars text.toList with
  | error e => rfl
  | ok ts =>
    dsimp only [Except.toOption, Option.bind_some]
    cases contents path ts.list <;> rfl

/-- The files that are read from sources with these characters, if all of them can be read. -/
def filesOfChars? (path : String) : List (String × List Char) → Option (List File)
  | [] => some []
  | (name, cs) :: sources =>
    (File.ofChars? path name cs).bind fun file => (filesOfChars? path sources).map (file :: ·)

theorem map_parseFile_of_chars {path : String} {sources : List SourceText} {files : List File}
    (h : filesOfChars? path (sources.map SourceText.chars) = some files) :
    (sources.map fun s => parseFile s.name s.text path) = files.map Except.ok := by
  induction sources generalizing files with
  | nil =>
    cases h
    rfl
  | cons s sources ih =>
    obtain ⟨file, hfile, hrest⟩ := Option.bind_eq_some_iff.1 h
    obtain ⟨files, hfiles, rfl⟩ := Option.map_eq_some_iff.1 hrest
    have hread : parseFile s.name s.text path = .ok file :=
      eq_ok_of_toOption ((toOption_parseFile ..).trans hfile)
    rw [List.map_cons, ih hfiles, hread, List.map_cons]

/-- The package of sources with these characters, if none of them is ignored and all of them are sound. -/
def Package.ofChars? (path : String) (sources : List (String × List Char)) : Option Package :=
  if sources.any fun s => ignoredAmong (Text.lines s.2) then none
  else (filesOfChars? path sources).bind fun files => files.head?.bind fun first =>
    if files.all (·.package == first.package) && (linkFlaws files).isEmpty then
      some (linkFiles path first.package files)
    else none

/-- **A package is loaded from the characters** of its sources. -/
theorem Package.ofSources_of_chars {path : String} {sources : List SourceText} {pkg : Package}
    (h : ofChars? path (sources.map SourceText.chars) = some pkg) :
    ofSources path sources = .ok pkg := by
  rw [ofChars?] at h
  split at h
  next => cases h
  next hcount =>
    obtain ⟨files, hfiles, h⟩ := Option.bind_eq_some_iff.1 h
    obtain ⟨first, hfirst, h⟩ := Option.bind_eq_some_iff.1 h
    have hcounts : (sources.filter fun s => !isIgnored s.text) = sources := by
      refine List.filter_eq_self.2 fun s hs => ?_
      simp only [Bool.not_eq_true, List.any_map, List.any_eq_false] at hcount
      simpa [isIgnored, SourceText.chars] using hcount s hs
    split at h
    next hsound =>
      simp only [Bool.and_eq_true, List.all_eq_true, beq_iff_eq, List.isEmpty_iff] at hsound
      refine ofSources_eq_ok.2 ⟨first.package, files, ⟨?_, ?_, hsound.1, hsound.2⟩,
        (Option.some.inj h).symm⟩
      · rw [hcounts, map_parseFile_of_chars hfiles]
      · rintro rfl
        cases hfirst
    next => cases h

/-- A package that is loaded from the characters of its sources, with what is checked of it. -/
theorem Package.exists_ofSources_of_any {path : String} {sources : List SourceText}
    {check : Package → Bool}
    (h : (ofChars? path (sources.map SourceText.chars)).any check = true) :
    ∃ pkg, ofSources path sources = .ok pkg ∧ check pkg = true := by
  obtain ⟨pkg, hpkg, hcheck⟩ := (Option.any_eq_true _ _).1 h
  exact ⟨pkg, ofSources_of_chars hpkg, hcheck⟩

/-- What is checked of every file that is read from the characters of some sources. -/
theorem parsed_of_all {path : String} {sources : List SourceText} {P : File → Prop}
    [DecidablePred P] (h : ((sources.map SourceText.chars).all fun s =>
      (File.ofChars? path s.1 s.2).all fun file => decide (P file)) = true) :
    ∀ s ∈ sources, isIgnored s.text = false → ∀ file, parseFile s.name s.text path = .ok file →
      P file := by
  intro s hs _ file hfile
  have hcheck := List.all_eq_true.1 h s.chars (List.mem_map_of_mem hs)
  rw [SourceText.chars, ← toOption_parseFile, hfile] at hcheck
  exact of_decide_eq_true hcheck

/-- A package with one source, which is given by its characters. -/
theorem Package.exists_ofSources_singleton {path file text : String} {cs : List Char}
    (htext : text.toList = cs) {check : Package → Bool}
    (h : (ofChars? path [(file, cs)]).any check = true) :
    ∃ pkg, ofSources path [⟨file, text⟩] = .ok pkg ∧ check pkg = true :=
  exists_ofSources_of_any (by rwa [List.map_singleton, SourceText.chars, htext])

/-! ### Objects of a loaded package -/

section

variable {path name : String} {files : List File} {sources : List SourceText}

/-- The declarations of files. -/
abbrev declarationsOf (files : List File) : List Declaration :=
  files.flatMap File.declarations

theorem Loads.sound (h : Loads path sources name files) {file : File} (hfile : file ∈ files) :
    file.Sound path :=
  h.of_sources (fun _ _ _ _ hread => sound_of_parseFile hread) file hfile

theorem Loads.nodup (h : Loads path sources name files) :
    ((declarationsOf files).map (·.object.name)).Nodup := by
  have hnone := (List.append_eq_nil_iff.1 h.linked).1
  rw [declarationsOf, List.map_flatMap]
  exact (allRedeclarations_eq_nil.1 hnone).1

@[simp] theorem name_resolvedObject (scope : List Declaration) (file : File) (object : Object) :
    (resolvedObject path scope file object).name = object.name := by
  rw [resolvedObject]
  split <;> rfl

@[simp] theorem isType_resolvedObject (scope : List Declaration) (file : File) (object : Object) :
    (resolvedObject path scope file object).kind.isType = object.kind.isType := by
  rw [resolvedObject]
  split
  next hkind => rw [hkind]; rfl
  next => rfl

theorem objects_foldl_insert (objects : List Object) (pkg : Package) :
    (objects.foldl Package.insert pkg).objects =
      objects.foldl (fun os o => Ascending.insert Object.name o os) pkg.objects := by
  induction objects generalizing pkg with
  | nil => rfl
  | cons o objects ih => exact ih (pkg.insert o)

theorem id_foldl_insert (objects : List Object) (pkg : Package) :
    (objects.foldl Package.insert pkg).id = pkg.id := by
  induction objects generalizing pkg with
  | nil => rfl
  | cons o objects ih => exact ih (pkg.insert o)

@[simp] theorem id_linkFiles (path name : String) (files : List File) :
    (linkFiles path name files).id = ⟨path, name⟩ :=
  id_foldl_insert _ _

/-- **The objects of a package** are the declarations of its files, with their types settled. -/
theorem lookup?_linkFiles (h : ((declarationsOf files).map (·.object.name)).Nodup) {n : String}
    {object : Object} :
    (linkFiles path name files).lookup? n = some object ↔
      ∃ file ∈ files, ∃ d ∈ file.declarations, d.object.name = n ∧
        object = resolvedObject path (declarationsOf files) file d.object := by
  have hnames : (files.flatMap fun file => file.declarations.map fun d =>
      resolvedObject path (declarationsOf files) file d.object).map Object.name =
        (declarationsOf files).map (·.object.name) := by
    simp [List.map_flatMap, Function.comp_def]
  rw [Package.lookup?, linkFiles, objects_foldl_insert, Ascending.find?_foldl_insert]
  simp only [Package.empty, List.find?_nil, Option.or_none]
  rw [find?_eq_some_of_nodup]
  swap
  · rw [List.map_reverse, hnames]
    exact List.pairwise_reverse.2 (h.imp Ne.symm)
  simp only [List.mem_reverse, List.mem_flatMap, List.mem_map]
  constructor
  · rintro ⟨⟨file, hfile, d, hd, rfl⟩, rfl⟩
    exact ⟨file, hfile, d, hd, by simp, rfl⟩
  · rintro ⟨file, hfile, d, hd, rfl, rfl⟩
    exact ⟨⟨file, hfile, d, hd, rfl⟩, by simp⟩

/-- Whether a name is a type is decided by its declaration. -/
theorem declaredAsType?_eq (h : ((declarationsOf files).map (·.object.name)).Nodup) (n : String) :
    declaredAsType? (declarationsOf files) n =
      ((linkFiles path name files).lookup? n).map (·.kind.isType) := by
  rw [declaredAsType?]
  cases hfound : (declarationsOf files).find? (·.object.name = n) with
  | some d =>
    obtain ⟨hd, hname⟩ := (find?_eq_some_of_nodup h).1 hfound
    obtain ⟨file, hfile, hd⟩ := List.mem_flatMap.1 hd
    have hlookup : (linkFiles path name files).lookup? n =
        some (resolvedObject path (declarationsOf files) file d.object) :=
      (lookup?_linkFiles h).2 ⟨file, hfile, d, hd, hname, rfl⟩
    rw [hlookup]
    simp
  | none =>
    cases hlookup : (linkFiles path name files).lookup? n with
    | none => rfl
    | some object =>
      obtain ⟨file, hfile, d, hd, hname, -⟩ := (lookup?_linkFiles h).1 hlookup
      have hnot := List.find?_eq_none.1 hfound d (List.mem_flatMap.2 ⟨file, hfile, hd⟩)
      simp [hname] at hnot

end

end Multicast
