import Mathlib.Data.List.Sort
import Multicast.Proofs.Qualifiers

/-!
# Packages that another file joins

A file can join a package if it declares new names only, if no name that the package's files refer to
is among them, and if it refers to types that are declared (`Joins`). The package is then the old one
with the new objects, wherever the file stands among the others (`linkFiles_joins`): a name that comes
from a dot import still does. What was found in the old package is found in the enlarged one
(`Package.Extends`), and so is what is put together from it, up to the plan of a hook.

## Old and new objects

That the old objects stay the same is a question on names without a qualifier. A name that no file
declared came from a dot import; if the new file declared it, it would be moved to the package. The
condition that no reference of the old files is among the new names excludes this (`Joins`).

The rest is about what is done with a package. Following types, embedding interfaces and extracting a
method look names up and never list them all. So what they find they find in every package that extends
the old one, and this carries over to plans (`Package.Extends.ofInterface`).
-/

namespace Multicast

open Source Syntax

/-! ### Packages with the same objects

The objects of a package are kept in order. Two packages with the same answers for all names are therefore
equal, and not only alike. -/

namespace Package

/-- **A package is what it looks up.** -/
theorem ext_lookup? {pkg pkg' : Package} (hid : pkg.id = pkg'.id)
    (h : ∀ name, pkg.lookup? name = pkg'.lookup? name) : pkg = pkg' := by
  have hobjects : pkg.objects = pkg'.objects := by
    have hsorted : pkg.objects.Pairwise fun x y => x.name < y.name := pkg.sorted
    have hsorted' : pkg'.objects.Pairwise fun x y => x.name < y.name := pkg'.sorted
    have : Std.Antisymm fun x y : Object => x.name < y.name :=
      ⟨fun _ _ hlt hgt => absurd hgt (String.lt_asymm hlt)⟩
    have : Std.Irrefl fun x y : Object => x.name < y.name := ⟨fun _ => String.lt_irrefl _⟩
    refine hsorted.eq_of_mem_iff hsorted' fun object => ?_
    rw [find?_objects, find?_objects, h]
  obtain ⟨id, objects, sorted⟩ := pkg
  obtain ⟨id', objects', sorted'⟩ := pkg'
  obtain rfl : id = id' := hid
  obtain rfl : objects = objects' := hobjects
  rfl

/-- What is looked up behind declarations of different names. -/
theorem lookup?_foldl_insert {pkg : Package} {objects : List Object}
    (h : (objects.map Object.name).Nodup) {name : String} {object : Object} :
    (objects.foldl Package.insert pkg).lookup? name = some object ↔
      object ∈ objects ∧ object.name = name ∨
        name ∉ objects.map Object.name ∧ pkg.lookup? name = some object := by
  have hnodup : (objects.reverse.map Object.name).Nodup := by
    rw [List.map_reverse]
    exact List.nodup_reverse.2 h
  rw [lookup?, objects_foldl_insert, Ascending.find?_foldl_insert, ← lookup?,
    Option.or_eq_some_iff, find?_eq_some_of_nodup hnodup, List.find?_eq_none]
  simp

/-! ### Packages that extend others -/

/-- **A package extends another one** if it is the same package and looks up what the other one
does. -/
structure Extends (pkg' pkg : Package) : Prop where
  id : pkg'.id = pkg.id
  lookup? : ∀ {name object}, pkg.lookup? name = some object → pkg'.lookup? name = some object

/-- New names extend a package. -/
theorem extends_foldl_insert {pkg : Package} {objects : List Object}
    (h : (objects.map Object.name).Nodup) (hnew : ∀ object ∈ objects, pkg.lookup? object.name = none) :
    (objects.foldl Package.insert pkg).Extends pkg where
  id := id_foldl_insert _ _
  lookup? {name object} hobject := by
    refine (lookup?_foldl_insert h).2 (.inr ⟨fun hmem => ?_, hobject⟩)
    obtain ⟨other, hother, rfl⟩ := List.mem_map.1 hmem
    rw [hnew other hother] at hobject
    cases hobject

namespace Extends

variable {pkg pkg' : Package}

/-- What a type stands for in a package it stands for in one that extends it. -/
theorem underlyingFrom (h : pkg'.Extends pkg) {seen : List String} {t u : GoType}
    (ht : pkg.underlyingFrom seen t = .ok u) : pkg'.underlyingFrom seen t = .ok u := by
  fun_induction pkg.underlyingFrom seen t with
  | case2 seen n hnew other declared isAlias hlookup ih =>
    rw [Package.underlyingFrom, if_pos h.id.symm, dif_neg hnew, h.lookup? hlookup]
    exact ih ht
  | case1 | case3 | case4 | case5 => cases ht
  | case6 | case7 | case8 | case9 =>
    rw [← ht]
    simp [Package.underlyingFrom, *]

theorem underlying (h : pkg'.Extends pkg) {t u : GoType} (ht : pkg.underlying t = .ok u) :
    pkg'.underlying t = .ok u :=
  h.underlyingFrom ht

/-- What is embedded in a package is embedded in one that extends it. -/
theorem embedAll (h : pkg'.Extends pkg) {path : List String} {found methods : List Method}
    {embeds : List GoType} (hembeds : pkg.embedAll path found embeds = .ok methods) :
    pkg'.embedAll path found embeds = .ok methods := by
  fun_induction pkg.embedAll path found embeds generalizing methods with
  | case1 path found =>
    rw [Package.embedAll]
    exact hembeds
  | case3 path found own inner embeds first hinner ih ih' =>
    rw [Package.embedAll, ih hinner]
    exact ih' hembeds
  | case7 path found n embeds hnew own inner first hinner hunderlying ih ih' =>
    have hbody := h.underlying hunderlying
    rw [Package.embedAll, dif_pos h.id.symm, dif_neg hnew]
    split
    next heq =>
      rw [heq] at hbody
      cases hbody
    next heq =>
      rw [heq] at hbody
      cases hbody
      rw [ih hinner]
      exact ih' hembeds
    next hother heq => exact absurd (Except.ok.inj (heq.symm.trans hbody)) (hother _ _)
  | case13 path found n embeds hbasic hnew own inner hunderlying first hinner ih ih' =>
    rw [Package.embedAll, dif_pos hbasic, dif_neg hnew, h.underlying hunderlying]
    dsimp only
    rw [ih hinner]
    exact ih' hembeds
  | _ => cases hembeds

theorem onlyMethod (h : pkg'.Extends pkg) {interface : String} {m : Method}
    (hm : pkg.OnlyMethod interface m) : pkg'.OnlyMethod interface m := by
  obtain ⟨declared, body, hdeclared, hbody, hmethods⟩ := hm
  obtain ⟨isAlias, hlookup⟩ := declaredType_eq_ok.1 hdeclared
  exact ⟨declared, body, declaredType_eq_ok.2 ⟨isAlias, h.lookup? hlookup⟩, h.underlying hbody,
    h.embedAll hmethods⟩

/-- **A plan for a package is one for every package that extends it.** -/
theorem ofInterface (h : pkg'.Extends pkg) {interface : String} {destination : PackageId}
    {config : Config} {t : HookFile}
    (hplan : HookFile.ofInterface pkg interface destination config = .ok t) :
    HookFile.ofInterface pkg' interface destination config = .ok t := by
  obtain ⟨method, hmethod, hplan⟩ := HookFile.ofInterface_eq_ok.1 hplan
  obtain ⟨hname, m, honly, hresults, hvalue⟩ := extract_eq_ok.1 hmethod
  refine HookFile.ofInterface_eq_ok.2 ⟨method, ?_, h.id.symm ▸ hplan⟩
  exact extract_eq_ok.2 ⟨hname, m, h.onlyMethod honly, hresults, hvalue⟩

end Extends

end Package

/-! ### Files without flaws between them -/

theorem linkFlaws_eq_nil_iff {files : List File} : linkFlaws files = [] ↔
    ((declarationsOf files).map (·.object.name)).Nodup ∧ ∀ file ∈ files, ∀ r ∈ file.references,
      referenceCause? (declarationsOf files) (dotImports file) r.name = none := by
  rw [linkFlaws, List.append_eq_nil_iff, allRedeclarations_eq_nil, declaredNames,
    ← List.map_flatMap, List.flatMap_eq_nil_iff]
  simp [referenceFlaws]

/-! ### Files that join others -/

/-- The names that a file declares. -/
def Syntax.File.declared (file : File) : List String :=
  file.declarations.map (·.object.name)

/-- **A file can join others** as a file of the package `name`. -/
structure Joins (name : String) (files : List File) (new : File) : Prop where
  package : new.package = name
  nodup : new.declared.Nodup
  /-- The names are new, and no file refers to them. -/
  fresh : ∀ file ∈ files, (∀ n ∈ file.declared, n ∉ new.declared) ∧
    ∀ r ∈ file.references, r.name ∉ new.declared
  dots : dotImports new = []
  references : ∀ r ∈ new.references,
    (∃ d ∈ new.declarations, d.object.name = r.name ∧ d.object.kind.isType = true) ∨
      r.name ∉ new.declared ∧ declaredAsType? (declarationsOf files) r.name = some true

section

variable {path name : String} {front back : List File} {new : File}

theorem mem_joined {file : File} : file ∈ front ++ new :: back ↔ file = new ∨ file ∈ front ++ back := by
  simp only [List.mem_append, List.mem_cons]
  tauto

theorem declaredAsType?_of_not_mem {n : String} (h : n ∉ new.declared) :
    declaredAsType? (declarationsOf (front ++ new :: back)) n =
      declaredAsType? (declarationsOf (front ++ back)) n := by
  have hnone : new.declarations.find? (·.object.name = n) = none := by
    refine List.find?_eq_none.2 fun d hd heq => h ?_
    exact of_decide_eq_true heq ▸ List.mem_map_of_mem hd
  simp [declaredAsType?, hnone]

/-- The names of a file that can join a package are new to it. -/
theorem Joins.lookup?_eq_none {files : List File} (h : Joins name files new)
    (hold : ((declarationsOf files).map (·.object.name)).Nodup) {n : String}
    (hn : n ∈ new.declared) : (linkFiles path name files).lookup? n = none := by
  rw [Option.eq_none_iff_forall_ne_some]
  intro object hlookup
  obtain ⟨file, hfile, d, hd, rfl, -⟩ := (lookup?_linkFiles hold).1 hlookup
  exact (h.fresh file hfile).1 _ (List.mem_map_of_mem hd) hn

namespace Joins

variable (h : Joins name (front ++ back) new)

include h

theorem nodup_names (hold : ((declarationsOf (front ++ back)).map (·.object.name)).Nodup) :
    ((declarationsOf (front ++ new :: back)).map (·.object.name)).Nodup := by
  have hperm : ((declarationsOf (front ++ new :: back)).map (·.object.name)).Perm
      (new.declared ++ (declarationsOf (front ++ back)).map (·.object.name)) := by
    rw [File.declared, ← List.map_append]
    refine List.Perm.map _ ?_
    simp only [declarationsOf, List.flatMap_append, List.flatMap_cons]
    exact List.perm_append_comm_assoc _ _ _
  refine hperm.nodup_iff.2 (List.nodup_append.2 ⟨h.nodup, hold, fun n hn m hm heq => ?_⟩)
  obtain ⟨d, hd, rfl⟩ := List.mem_map.1 hm
  obtain ⟨file, hfile, hd⟩ := List.mem_flatMap.1 hd
  exact (h.fresh file hfile).1 _ (List.mem_map_of_mem hd) (heq ▸ hn)

theorem resolvedObject_old {file : File} (hfile : file ∈ front ++ back) (object : Object) :
    resolvedObject path (declarationsOf (front ++ new :: back)) file object =
      resolvedObject path (declarationsOf (front ++ back)) file object := by
  have hborrowed : (file.references.map Reference.name).filter (fun n =>
      (declaredAsType? (declarationsOf (front ++ new :: back)) n).isNone) =
        (file.references.map Reference.name).filter fun n =>
          (declaredAsType? (declarationsOf (front ++ back)) n).isNone := by
    refine List.filter_congr fun n hn => ?_
    obtain ⟨r, hr, rfl⟩ := List.mem_map.1 hn
    rw [declaredAsType?_of_not_mem ((h.fresh file hfile).2 r hr)]
  unfold resolvedObject
  rw [hborrowed]

theorem resolvedObject_new (scope : List Declaration) (object : Object) :
    resolvedObject path scope new object = object := by
  rw [resolvedObject, h.dots]

/-- There is no flaw between the files if there was none before. -/
theorem linkFlaws_eq_nil (hold : linkFlaws (front ++ back) = []) :
    linkFlaws (front ++ new :: back) = [] := by
  obtain ⟨honce, hreferred⟩ := linkFlaws_eq_nil_iff.1 hold
  have hnodup := h.nodup_names honce
  refine linkFlaws_eq_nil_iff.2 ⟨hnodup, fun file hfile r hr => ?_⟩
  rcases mem_joined.1 hfile with rfl | hfile
  · have htype : declaredAsType? (declarationsOf (front ++ file :: back)) r.name = some true := by
      rcases h.references r hr with ⟨d, hd, hname, htype⟩ | ⟨hnot, hdeclared⟩
      · have hmem : d ∈ declarationsOf (front ++ file :: back) :=
          List.mem_flatMap.2 ⟨file, by simp, hd⟩
        have hfound := (find?_eq_some_of_nodup hnodup).2 ⟨hmem, hname⟩
        rw [declaredAsType?, hfound, Option.map_some, htype]
      · rwa [declaredAsType?_of_not_mem hnot]
    unfold referenceCause?
    rw [htype]
  · have hcause := hreferred file hfile r hr
    unfold referenceCause? at hcause ⊢
    rwa [declaredAsType?_of_not_mem ((h.fresh file hfile).2 r hr)]

/-- **The package that a file joins** is the old one with the new objects. -/
theorem linkFiles_eq (hold : ((declarationsOf (front ++ back)).map (·.object.name)).Nodup) :
    linkFiles path name (front ++ new :: back) =
      (new.declarations.map Declaration.object).foldl Package.insert
        (linkFiles path name (front ++ back)) := by
  have hnodup := h.nodup_names hold
  have hnames : (new.declarations.map Declaration.object).map Object.name = new.declared := by
    rw [List.map_map]
    rfl
  refine Package.ext_lookup? ?_ fun n => Option.ext fun object => ?_
  · rw [id_foldl_insert, id_linkFiles, id_linkFiles]
  rw [Package.lookup?_foldl_insert (hnames ▸ h.nodup), hnames, lookup?_linkFiles hnodup,
    lookup?_linkFiles hold]
  constructor
  · rintro ⟨file, hfile, d, hd, rfl, rfl⟩
    rcases mem_joined.1 hfile with rfl | hfile
    · rw [h.resolvedObject_new]
      exact .inl ⟨List.mem_map_of_mem hd, rfl⟩
    · rw [h.resolvedObject_old hfile]
      exact .inr ⟨(h.fresh file hfile).1 _ (List.mem_map_of_mem hd), file, hfile, d, hd, rfl, rfl⟩
  · rintro (⟨hmem, rfl⟩ | ⟨-, file, hfile, d, hd, rfl, rfl⟩)
    · obtain ⟨d, hd, rfl⟩ := List.mem_map.1 hmem
      exact ⟨new, mem_joined.2 (.inl rfl), d, hd, rfl, (h.resolvedObject_new _ _).symm⟩
    · exact ⟨file, mem_joined.2 (.inr hfile), d, hd, rfl, (h.resolvedObject_old hfile _).symm⟩

end Joins

end

/-- **A source that can join a package is loaded with it**, wherever it stands. -/
theorem Loads.joins {path name : String} {before after : List SourceText} {files : List File}
    (h : Loads path (before ++ after) name files) {s : SourceText} {new : File}
    (hcounts : isIgnored s.text = false) (hread : parseFile s.name s.text path = .ok new)
    (hnew : Joins name files new) :
    ∃ files', Loads path (before ++ s :: after) name files' ∧
      linkFiles path name files' = (new.declarations.map Declaration.object).foldl Package.insert
        (linkFiles path name files) := by
  have hread' := h.read
  rw [List.filter_append, List.map_append] at hread'
  obtain ⟨front, back, rfl, hfront, hback⟩ := List.append_eq_map_iff.1 hread'
  refine ⟨front ++ new :: back, ⟨?_, by simp, fun file hfile => ?_, hnew.linkFlaws_eq_nil h.linked⟩,
    hnew.linkFiles_eq h.nodup⟩
  · simp [List.filter_append, hcounts, hfront, hback, hread]
  · rcases mem_joined.1 hfile with rfl | hfile
    · exact hnew.package
    · exact h.package file hfile

end Multicast
