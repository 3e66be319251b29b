import Multicast.Proofs.Enlarged

/-!
# The order of files does not matter

Loading goes through the files of a package one after the other: their package names are collected,
names are looked up as they were declared first, and objects are declared one by one. What comes out
of it depends on which files there are, and not on their order (`ofSourcesIn_agree`). For the names of
packages and of objects are kept in ascending order, and a name that is declared twice is a flaw in
whatever order it is. So a package that loads holds the declarations of its files, each of them once
and none in the place of another (`ofSources_perm`).

## What order could decide

Three steps depend on the order of the files as they are written. Package names are collected in a list,
but in an ascending one without repetitions. Of several declarations of one name the first one is looked
up, but a package with several is refused. And flaws are listed in the order of the files; so failures are
compared by their kind, and not by their texts.

The proof takes these steps one after the other (`agree_of_steps`). It is stated for any two lists of
sources that give the same clauses and files up to order, so that it also serves where sources are changed
and not only permuted.
-/

namespace Multicast

open Source Syntax

/-! ### Lists in another order -/

theorem Ascending.ofList_perm {names others : List String} (h : names.Perm others) :
    Ascending.ofList (fun name => name) names = Ascending.ofList (fun name => name) others := by
  have hsorted (ns : List String) : (Ascending.ofList (fun name => name) ns).Pairwise (· < ·) :=
    Ascending.sorted_ofList ns
  have : Std.Antisymm fun x y : String => x < y :=
    ⟨fun _ _ hlt hgt => absurd hgt (String.lt_asymm hlt)⟩
  have : Std.Irrefl fun x y : String => x < y := ⟨fun _ => String.lt_irrefl _⟩
  refine (hsorted names).eq_of_mem_iff (hsorted others) fun name => ?_
  exact (Ascending.mem_ofList.trans h.mem_iff).trans Ascending.mem_ofList.symm

/-- The errors and the values of several results come in the order of the results. -/
theorem partitionResults_perm {ε α : Type} {results others : List (Except ε α)}
    (h : results.Perm others) :
    (partitionResults results).1.Perm (partitionResults others).1 ∧
      (partitionResults results).2.Perm (partitionResults others).2 := by
  induction h with
  | nil => exact ⟨.nil, .nil⟩
  | cons result _ ih =>
    cases result with
    | error e => exact ⟨ih.1.cons e, ih.2⟩
    | ok a => exact ⟨ih.1, ih.2.cons a⟩
  | swap first second results =>
    cases first with
    | error e => cases second with
      | error e' => exact ⟨.swap .., .refl _⟩
      | ok a => exact ⟨.refl _, .refl _⟩
    | ok a => cases second with
      | error e => exact ⟨.refl _, .refl _⟩
      | ok a' => exact ⟨.refl _, .swap ..⟩
  | trans _ _ ih ih' => exact ⟨ih.1.trans ih'.1, ih.2.trans ih'.2⟩

theorem find?_perm_of_nodup {α : Type} {key : α → String} {xs ys : List α} (h : xs.Perm ys)
    (hnodup : (xs.map key).Nodup) (k : String) :
    xs.find? (key · = k) = ys.find? (key · = k) := by
  have hnodup' : (ys.map key).Nodup := (h.map key).nodup_iff.1 hnodup
  refine Option.ext fun x => ?_
  rw [find?_eq_some_of_nodup hnodup, find?_eq_some_of_nodup hnodup', h.mem_iff]

/-! ### Files in another order -/

section

variable {path name : String} {files others : List File}

theorem declarationsOf_perm (h : files.Perm others) :
    (declarationsOf files).Perm (declarationsOf others) :=
  h.flatMap_right _

variable (h : files.Perm others) (hnodup : ((declarationsOf files).map (·.object.name)).Nodup)

include h hnodup

theorem declaredAsType?_perm (n : String) :
    declaredAsType? (declarationsOf files) n = declaredAsType? (declarationsOf others) n :=
  congrArg _ (find?_perm_of_nodup (declarationsOf_perm h) hnodup n)

theorem resolvedObject_perm (file : File) (object : Object) :
    resolvedObject path (declarationsOf files) file object =
      resolvedObject path (declarationsOf others) file object := by
  unfold resolvedObject
  simp only [declaredAsType?_perm h hnodup]

/-- **Files link to the same package in every order.** -/
theorem linkFiles_perm : linkFiles path name files = linkFiles path name others := by
  have hnodup' : ((declarationsOf others).map (·.object.name)).Nodup :=
    ((declarationsOf_perm h).map _).nodup_iff.1 hnodup
  refine Package.ext_lookup? (by simp) fun n => Option.ext fun object => ?_
  rw [lookup?_linkFiles hnodup, lookup?_linkFiles hnodup']
  simp only [h.mem_iff, resolvedObject_perm h hnodup]

omit hnodup

/-- Files without flaws between them have none in any other order. -/
theorem linkFlaws_perm : linkFlaws files = [] ↔ linkFlaws others = [] := by
  -- one direction is enough, since the other order is as good as this one
  suffices hother : ∀ {fs gs : List File}, fs.Perm gs → linkFlaws fs = [] → linkFlaws gs = [] from
    ⟨hother h, hother h.symm⟩
  intro fs gs hperm hfs
  obtain ⟨hnodup, hreferred⟩ := linkFlaws_eq_nil_iff.1 hfs
  refine linkFlaws_eq_nil_iff.2 ⟨((declarationsOf_perm hperm).map _).nodup_iff.1 hnodup, ?_⟩
  intro file hfile r hr
  have hcause := hreferred file (hperm.mem_iff.2 hfile) r hr
  unfold referenceCause? at hcause ⊢
  rwa [← declaredAsType?_perm hperm hnodup]

end

/-! ### Loading

Two loadings agree if both give the same package, or both fail for one kind of reason. Which flaws there
are is the same in any order, but not which of them is told first. -/

/-- **Failures of one kind**: packages are missing, or there are the same packages too many, or the
files have flaws. -/
inductive LoadError.SameKind : LoadError → LoadError → Prop
  | noPackages (place : String) : SameKind (.noPackages place) (.noPackages place)
  | tooManyPackages (place : String) (names : List String) :
    SameKind (.tooManyPackages place names) (.tooManyPackages place names)
  | source (diagnostics others : List Diagnostic) :
    SameKind (.source diagnostics) (.source others)

/-- **Loadings that agree**: both give the same package, or both fail for one kind of reason. -/
inductive Agree : Except LoadError Package → Except LoadError Package → Prop
  | ok (pkg : Package) : Agree (.ok pkg) (.ok pkg)
  | error {e e' : LoadError} (h : e.SameKind e') : Agree (.error e) (.error e')

/-- What the package clauses of the sources that count give. -/
def clausesOf (sources : List SourceText) : List Diagnostic × List String :=
  partitionResults ((sources.filter fun s => !isIgnored s.text).map fun s => parsePackageName s.name s.text)

/-- What the sources that count are read as. -/
def filesOf (path : String) (sources : List SourceText) : List Diagnostic × List File :=
  partitionResults ((sources.filter fun s => !isIgnored s.text).map fun s => parseFile s.name s.text path)

theorem ofSourcesIn_eq (place path : String) (sources : List SourceText) :
    Package.ofSourcesIn place path sources =
      if !(clausesOf sources).1.isEmpty then .error (.source (clausesOf sources).1)
      else match Ascending.ofList (fun name => name) (clausesOf sources).2 with
        | [] => .error (.noPackages place)
        | [name] =>
          if ((filesOf path sources).1 ++ linkFlaws (filesOf path sources).2).isEmpty then
            .ok (linkFiles path name (filesOf path sources).2)
          else .error (.source ((filesOf path sources).1 ++ linkFlaws (filesOf path sources).2))
        | names => .error (.tooManyPackages place names) := rfl

/-- **Loadings agree if they do so step by step**: the clauses fail in both or give the same names, and
the files fail in both or link to the same package. -/
theorem agree_of_steps {place path : String} {sources others : List SourceText}
    (hclauses : (clausesOf sources).1.isEmpty = (clausesOf others).1.isEmpty)
    (hnames : (clausesOf sources).1 = [] → Ascending.ofList (fun name => name) (clausesOf sources).2 =
      Ascending.ofList (fun name => name) (clausesOf others).2)
    (hfiles : (filesOf path sources).1.isEmpty = (filesOf path others).1.isEmpty)
    (hflaws : (filesOf path sources).1 = [] →
      (linkFlaws (filesOf path sources).2 = [] ↔ linkFlaws (filesOf path others).2 = []))
    (hlinked : (filesOf path sources).1 = [] → linkFlaws (filesOf path sources).2 = [] → ∀ name,
      linkFiles path name (filesOf path sources).2 = linkFiles path name (filesOf path others).2) :
    Agree (Package.ofSourcesIn place path sources) (Package.ofSourcesIn place path others) := by
  rw [ofSourcesIn_eq, ofSourcesIn_eq, ← hclauses]
  split
  next => exact .error (.source ..)
  next hok =>
    rw [← hnames (by simpa using hok)]
    split
    next => exact .error (.noPackages place)
    next name _ =>
      have hsame : ((filesOf path sources).1 ++ linkFlaws (filesOf path sources).2).isEmpty =
          ((filesOf path others).1 ++ linkFlaws (filesOf path others).2).isEmpty := by
        have hread : (filesOf path sources).1 = [] ↔ (filesOf path others).1 = [] := by
          rw [← List.isEmpty_iff, hfiles, List.isEmpty_iff]
        rw [Bool.eq_iff_iff, List.isEmpty_iff, List.isEmpty_iff, List.append_eq_nil_iff,
          List.append_eq_nil_iff, ← hread]
        exact and_congr_right hflaws
      rw [← hsame]
      split
      next hnone =>
        obtain ⟨hread, hnoFlaw⟩ := List.append_eq_nil_iff.1 (List.isEmpty_iff.1 hnone)
        rw [hlinked hread hnoFlaw name]
        exact .ok _
      next => exact .error (.source ..)
    next => exact .error (.tooManyPackages ..)

/-- **Loading does not depend on the order of the sources.** -/
theorem ofSourcesIn_agree {place path : String} {sources others : List SourceText}
    (h : sources.Perm others) :
    Agree (Package.ofSourcesIn place path sources) (Package.ofSourcesIn place path others) := by
  have hcounts := h.filter fun s => !isIgnored s.text
  obtain ⟨hclauses, hnames⟩ := partitionResults_perm (hcounts.map fun s =>
    parsePackageName s.name s.text)
  obtain ⟨herrors, hfiles⟩ := partitionResults_perm (hcounts.map fun s =>
    parseFile s.name s.text path)
  exact agree_of_steps hclauses.isEmpty_eq (fun _ => Ascending.ofList_perm hnames) herrors.isEmpty_eq
    (fun _ => linkFlaws_perm hfiles)
    fun _ hnone name => linkFiles_perm hfiles (linkFlaws_eq_nil_iff.1 hnone).1

/-! ### What is loaded -/

/-- The objects that files declare, with their types settled. -/
def settledObjects (path : String) (files : List File) : List Object :=
  files.flatMap fun file =>
    file.declarations.map fun d => resolvedObject path (declarationsOf files) file d.object

section

variable {path name : String} {files : List File}

theorem names_settledObjects :
    (settledObjects path files).map Object.name = (declarationsOf files).map (·.object.name) := by
  simp [settledObjects, List.map_flatMap, Function.comp_def]

/-- **No declaration is lost, and none is added.** -/
theorem objects_linkFiles_perm (h : ((declarationsOf files).map (·.object.name)).Nodup) :
    (linkFiles path name files).objects.Perm (settledObjects path files) := by
  have hsettled : (settledObjects path files).Nodup :=
    .of_map Object.name (names_settledObjects ▸ h)
  have hobjects : (linkFiles path name files).objects.Nodup :=
    .of_map Object.name (Package.nodup_names _)
  refine (List.perm_ext_iff_of_nodup hobjects hsettled).2 fun object => ?_
  rw [Package.find?_objects, lookup?_linkFiles h]
  simp only [settledObjects, List.mem_flatMap, List.mem_map]
  constructor
  · rintro ⟨file, hfile, d, hd, -, rfl⟩
    exact ⟨file, hfile, d, hd, rfl⟩
  · rintro ⟨file, hfile, d, hd, rfl⟩
    exact ⟨file, hfile, d, hd, by simp, rfl⟩

end

/-- **A package is the disjoint union of its files, in whatever order they come.** Loading succeeds in
one order exactly if it does in another, with the same package: its objects are the declarations of
the files that count, each of which is found under its name, and there are as many as there are
declarations. Otherwise both orders give the same kind of failure. -/
theorem ofSources_perm {path : String} {sources others : List SourceText}
    (h : sources.Perm others) :
    (∃ pkg files, Package.ofSources path sources = .ok pkg ∧
      Package.ofSources path others = .ok pkg ∧
      ((sources.filter fun s => !isIgnored s.text).map fun s => parseFile s.name s.text path) =
        files.map Except.ok ∧
      ((declarationsOf files).map (·.object.name)).Nodup ∧
      pkg.objects.Perm (settledObjects path files) ∧
      (∀ file ∈ files, ∀ d ∈ file.declarations, pkg.lookup? d.object.name =
        some (resolvedObject path (declarationsOf files) file d.object)) ∧
      pkg.size = (declarationsOf files).length) ∨
    ∃ e e', Package.ofSources path sources = .error e ∧ Package.ofSources path others = .error e' ∧
      e.SameKind e' := by
  have hagree : Agree (Package.ofSources path sources) (Package.ofSources path others) :=
    ofSourcesIn_agree h
  generalize hsources : Package.ofSources path sources = loaded at hagree
  generalize hothers : Package.ofSources path others = loaded' at hagree
  cases hagree with
  | error hkind => exact .inr ⟨_, _, rfl, rfl, hkind⟩
  | ok pkg =>
    obtain ⟨name, files, hloads, rfl⟩ := Package.ofSources_eq_ok.1 hsources
    have hobjects : (linkFiles path name files).objects.Perm (settledObjects path files) :=
      objects_linkFiles_perm hloads.nodup
    refine .inl ⟨_, files, rfl, rfl, hloads.read, hloads.nodup, hobjects, fun file hfile d hd => ?_, ?_⟩
    · exact (lookup?_linkFiles hloads.nodup).2 ⟨file, hfile, d, hd, rfl, rfl⟩
    · have hlength : ((settledObjects path files).map Object.name).length = _ :=
        congrArg List.length names_settledObjects
      rw [List.length_map, List.length_map] at hlength
      exact hobjects.length_eq.trans hlength

theorem ofSources_perm_of_chainSources :
    ∃ pkg files, Package.ofSources "example.com/chain" chainSources = .ok pkg ∧
      Package.ofSources "example.com/chain" chainSources.reverse = .ok pkg ∧
      pkg.objects.Perm (settledObjects "example.com/chain" files) ∧
      pkg.size = (declarationsOf files).length := by
  obtain ⟨loaded, hloaded⟩ := exists_package_of_chainSources
  rcases ofSources_perm (List.reverse_perm chainSources).symm with
    ⟨pkg, files, hok, hok', -, -, hobjects, -, hsize⟩ | ⟨e, -, he, -⟩
  · exact ⟨pkg, files, hok, hok', hobjects, hsize⟩
  · cases he.symm.trans hloaded

end Multicast
