import Multicast.Proofs.Exchange
import Multicast.Proofs.LoadOrder

/-!
# Sources that say the same

A package is put together from what its files say, and the places where they say it are told in failures
only. So where each of the sources is exchanged for one that says the same (`SourceText.SaysSame`), the
same package is loaded, or loading fails for the same kind of reason (`ofSourcesIn_agree_of_saysSame`). A
source that is refused may be exchanged for any other one that is.

## Places do not count

Two files that say the same have the same declarations in the same order, at other places, and references
to the same names. Linking goes through both in step: it looks names up, moves types and inserts objects,
and none of that asks for a place. Flaws are found for the same names, at other places. So the results of
loading differ in the texts of failures at most.
-/

namespace Multicast

open Source Syntax

/-! ### Results that say the same -/

/-- **Two results that are related**, or both are errors, whatever the errors are. -/
inductive BothRead {ε α : Type} (R : α → α → Prop) : Except ε α → Except ε α → Prop
  | ok {a b : α} (h : R a b) : BothRead R (.ok a) (.ok b)
  | error (e e' : ε) : BothRead R (.error e) (.error e')

section

variable {ε α : Type} {R : α → α → Prop}

/-- Where results are related, their values are, and there are errors among both or among none. -/
theorem partitionResults_bothRead {results others : List (Except ε α)}
    (h : List.Forall₂ (BothRead R) results others) :
    (partitionResults results).1.isEmpty = (partitionResults others).1.isEmpty ∧
      ((partitionResults results).1 = [] →
        List.Forall₂ R (partitionResults results).2 (partitionResults others).2) := by
  induction h with
  | nil => exact ⟨rfl, fun _ => .nil⟩
  | cons h _ ih =>
    cases h with
    | error e e' => exact ⟨rfl, fun hnone => by cases hnone⟩
    | ok h => exact ⟨ih.1, fun hnone => .cons h (ih.2 hnone)⟩

end

/-! ### Texts that say the same -/

section

variable {file file' text text' : String} {ts ts' : Tokens} {tokens : List Token}

/-- Texts say the same if the same is read of their tokens, wherever these stand. -/
theorem bothRead_parseFile {path : String} (hts : tokenize text = .ok ts) (hts' : tokenize text' = .ok ts')
    (hsame : SameWords ts'.list tokens) (hcontents : contents path tokens = contents path ts.list) :
    BothRead File.SaysSame (parseFile file text path) (parseFile file' text' path) := by
  cases hparse : parseFile file text path with
  | ok f =>
    obtain ⟨f', hparse', hf⟩ := parseFile_exchange hts hparse hcontents hts' hsame
    exact hparse' ▸ .ok hf
  | error e =>
    have hrefused : ∃ e, contents path tokens = .error e := by
      cases hread : contents path tokens with
      | error e => exact ⟨e, rfl⟩
      | ok parsed =>
        rw [parseFile_eq_ok.2 ⟨ts, _, _, _, hts, hcontents.symm.trans hread, rfl⟩] at hparse
        cases hparse
    obtain ⟨e', he'⟩ := parseFile_error_of_contents hts' hsame hrefused
    exact he' ▸ .error e e'

/-- Texts give the same package name if their package clauses do. -/
theorem bothRead_parsePackageName (hts : tokenize text = .ok ts) (hts' : tokenize text' = .ok ts')
    (hsame : SameWords ts'.list tokens)
    (hclause : (packageClause tokens).map Parsed.value = (packageClause ts.list).map Parsed.value) :
    BothRead Eq (parsePackageName file text) (parsePackageName file' text') := by
  have halike := alike_packageClause ts'.list tokens hsame
  rw [parsePackageName, parsePackageName, readText, readText, hts, hts']
  dsimp only
  generalize packageClause ts.list = clause at hclause ⊢
  generalize packageClause ts'.list = clause' at halike ⊢
  generalize packageClause tokens = between at halike hclause
  -- the clause of the second text says what stands between them, and this what the first one says
  cases halike with
  | ok hvalue =>
    cases clause with
    | error e => cases hclause
    | ok parsed => exact .ok ((Except.ok.inj hclause).symm.trans hvalue.symm)
  | error =>
    cases clause with
    | error e => exact .error ..
    | ok parsed => cases hclause

end

/-! ### Files that say the same -/

section

variable {path name : String} {files others : List File}

theorem objects_eq_of_saysSame (h : List.Forall₂ File.SaysSame files others) :
    (declarationsOf others).map Declaration.object = (declarationsOf files).map Declaration.object := by
  induction h with
  | nil => rfl
  | cons hsame _ ih =>
    rw [declarationsOf, List.flatMap_cons, List.map_append, hsame.objects, ih]
    simp [declarationsOf]

/-- Whether a name is declared as a type does not depend on the place. -/
theorem declaredAsType?_congr {ds ds' : List Declaration}
    (h : ds'.map Declaration.object = ds.map Declaration.object) (n : String) :
    declaredAsType? ds' n = declaredAsType? ds n := by
  have hobjects (ds : List Declaration) : declaredAsType? ds n =
      ((ds.map Declaration.object).find? (·.name = n)).map (·.kind.isType) := by
    rw [declaredAsType?, List.find?_map, Option.map_map]
    rfl
  rw [hobjects, hobjects, h]

theorem Syntax.File.SaysSame.resolvedObject_eq {f f' : File} (h : f.SaysSame f') {ds ds' : List Declaration}
    (hscope : ds'.map Declaration.object = ds.map Declaration.object) (object : Object) :
    resolvedObject path ds' f' object = resolvedObject path ds f object := by
  simp only [resolvedObject, dotImports, h.imports, h.references, declaredAsType?_congr hscope]

variable (h : List.Forall₂ File.SaysSame files others)

include h

/-- **Files that say the same link to the same package.** -/
theorem linkFiles_eq_of_saysSame : linkFiles path name others = linkFiles path name files := by
  have hscope := objects_eq_of_saysSame h
  -- the scope stays that of all files while these are gone through one by one
  have hresolved {fs gs : List File} (hsame : List.Forall₂ File.SaysSame fs gs) :
      (gs.flatMap fun file => file.declarations.map fun d =>
          resolvedObject path (declarationsOf others) file d.object) =
        fs.flatMap fun file => file.declarations.map fun d =>
          resolvedObject path (declarationsOf files) file d.object := by
    induction hsame with
    | nil => rfl
    | @cons f f' fs gs hfile _ ih =>
      have hmap := congrArg (List.map (resolvedObject path (declarationsOf files) f)) hfile.objects
      rw [List.map_map, List.map_map] at hmap
      rw [List.flatMap_cons, List.flatMap_cons, ih]
      refine congrArg (· ++ _) (Eq.trans ?_ hmap)
      exact List.map_congr_left fun d _ => hfile.resolvedObject_eq hscope d.object
  exact congrArg (List.foldl Package.insert (Package.empty ⟨path, name⟩)) (hresolved h)

/-- There are flaws between files if there are between files that say the same. -/
theorem linkFlaws_eq_nil_congr : linkFlaws others = [] ↔ linkFlaws files = [] := by
  have hscope := objects_eq_of_saysSame h
  have hnames : (declarationsOf others).map (·.object.name) = (declarationsOf files).map (·.object.name) := by
    simpa [Function.comp_def] using congrArg (List.map Object.name) hscope
  rw [linkFlaws_eq_nil_iff, linkFlaws_eq_nil_iff, hnames]
  refine and_congr_right fun _ => ?_
  have hreferred {fs gs : List File} (hsame : List.Forall₂ File.SaysSame fs gs) :
      (∀ file ∈ gs, ∀ r ∈ file.references,
          referenceCause? (declarationsOf others) (dotImports file) r.name = none) ↔
        ∀ file ∈ fs, ∀ r ∈ file.references,
          referenceCause? (declarationsOf files) (dotImports file) r.name = none := by
    induction hsame with
    | nil => simp
    | @cons f f' fs gs hfile _ ih =>
      rw [List.forall_mem_cons, List.forall_mem_cons, ih]
      refine and_congr_left fun _ => ?_
      have hcause (n : String) : referenceCause? (declarationsOf others) (dotImports f') n =
          referenceCause? (declarationsOf files) (dotImports f) n := by
        simp only [referenceCause?, dotImports, hfile.imports, declaredAsType?_congr hscope]
      rw [← List.forall_mem_map (f := Reference.name)
          (P := fun n => referenceCause? (declarationsOf others) (dotImports f') n = none),
        ← List.forall_mem_map (f := Reference.name)
          (P := fun n => referenceCause? (declarationsOf files) (dotImports f) n = none), hfile.references]
      simp only [hcause]
  exact hreferred h

end

/-! ### Loading -/

/-- **Sources that say the same**: both count or none does, and if they count they give the same
package name and are read as files that say the same, or both are refused. -/
structure SourceText.SaysSame (path : String) (s s' : SourceText) : Prop where
  ignored : isIgnored s'.text = isIgnored s.text
  package : isIgnored s.text = false →
    BothRead Eq (parsePackageName s.name s.text) (parsePackageName s'.name s'.text)
  file : isIgnored s.text = false →
    BothRead File.SaysSame (parseFile s.name s.text path) (parseFile s'.name s'.text path)

/-- What is read of the sources that count. -/
theorem forall₂_counted {β : Type} {R : β → β → Prop} {path : String} {sources others : List SourceText}
    (read : SourceText → β) (h : List.Forall₂ (SourceText.SaysSame path) sources others)
    (hread : ∀ s s', s.SaysSame path s' → isIgnored s.text = false → R (read s) (read s')) :
    List.Forall₂ R ((sources.filter fun s => !isIgnored s.text).map read)
      ((others.filter fun s => !isIgnored s.text).map read) := by
  induction h with
  | nil => exact .nil
  | @cons s s' sources others hsame _ ih =>
    rw [List.filter_cons, List.filter_cons, hsame.ignored]
    split
    next hcounts => exact .cons (hread s s' hsame (by simpa using hcounts)) ih
    next => exact ih

/-- **Sources that say the same load the same.** -/
theorem ofSourcesIn_agree_of_saysSame {place path : String} {sources others : List SourceText}
    (h : List.Forall₂ (SourceText.SaysSame path) sources others) :
    Agree (Package.ofSourcesIn place path sources) (Package.ofSourcesIn place path others) := by
  obtain ⟨hclauses, hnames⟩ := partitionResults_bothRead
    (forall₂_counted (fun s => parsePackageName s.name s.text) h fun _ _ hsame => hsame.package)
  obtain ⟨herrors, hfiles⟩ := partitionResults_bothRead
    (forall₂_counted (fun s => parseFile s.name s.text path) h fun _ _ hsame => hsame.file)
  refine agree_of_steps hclauses (fun hnone => ?_) herrors
    (fun hnone => (linkFlaws_eq_nil_congr (hfiles hnone)).symm)
    fun hnone _ name => (linkFiles_eq_of_saysSame (hfiles hnone)).symm
  exact congrArg _ (List.forall₂_eq_eq_eq ▸ hnames hnone : (clausesOf sources).2 = (clausesOf others).2)

end Multicast
