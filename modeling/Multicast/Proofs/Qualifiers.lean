import Multicast.Proofs.ForwardedBack

/-!
# What qualifiers denote

A generated file writes the types of other packages behind the short names of these packages, and
imports the packages by their paths. It gives no import a name of its own, and nothing checks that
the short names differ: a file of the package can tell two packages apart by names that it gives to
its imports, and the generated file cannot (`twoRands`). So a qualifier denotes the
package that owns the type just where the short names of the imports are unambiguous
(`HookFile.Unambiguous`). What is imported, on the other hand, is always what is written.

## When qualifiers are ambiguous

The generated file has one scope for qualifiers, its imports by their short names. A qualifier denotes
what the scope gives for it. If two imports have one short name, it gives one of them, and the other one
cannot be meant. Types of the file come before imports, so they count, too. The statement has two parts
for this reason: text and imports are exact without a condition, and what the text denotes is exact under
one.
-/

namespace Multicast

open Source Syntax

/-- The short name of the package at a path, as another package knows it: its own name, or else the
one that the path suggests. -/
def Package.shortName (pkg : Package) (path : String) : String :=
  if path = pkg.id.path then pkg.id.name else PackageId.guessName path

theorem Package.Knows.name_eq {pkg : Package} {package : PackageId} (h : pkg.Knows package)
    (hown : package.path = pkg.id.path → package = pkg.id) :
    pkg.shortName package.path = package.name := by
  rw [Package.shortName]
  split
  next heq => rw [hown heq]
  next hne =>
    rcases h with rfl | ⟨heq, -⟩
    · exact absurd rfl hne
    · exact (congrArg PackageId.name heq).symm

namespace HookFile

/-- The types that a generated file declares. -/
def declaredTypes (t : HookFile) : List String :=
  [t.hookName, "hooked", "Cancel"]

/-- What a generated file lets its qualifiers mean, where packages have the short names that `pkg`
knows them by. -/
def scope (t : HookFile) (pkg : Package) (own : PackageId) : Scope :=
  ⟨own, t.fileImports.map fun path => ⟨none, ⟨path, pkg.shortName path⟩⟩⟩

/-- **The short names of a generated file are unambiguous**: no two imports have the same one, and
none is that of a type of the file. -/
structure Unambiguous (t : HookFile) (pkg : Package) : Prop where
  distinct : (t.fileImports.map pkg.shortName).Nodup
  free : ∀ path ∈ t.fileImports, pkg.shortName path ∉ t.declaredTypes

theorem mem_fileImports {t : HookFile} {path : String} :
    path ∈ t.fileImports ↔ path ∈ t.imports ∨ t.threadSafe = true ∧ path = syncPackage := by
  rw [fileImports]
  cases t.threadSafe with
  | false => simp [Ascending.mem_ofList]
  | true => simp [Ascending.mem_insert, Ascending.mem_ofList, or_comm]

/-- Where short names are unambiguous, that of an import denotes the package at its path. -/
theorem Unambiguous.import? {t : HookFile} {pkg : Package} (h : t.Unambiguous pkg)
    (own : PackageId) {path : String} (hpath : path ∈ t.fileImports) :
    (t.scope pkg own).import? (pkg.shortName path) = some ⟨path, pkg.shortName path⟩ := by
  refine import?_eq_some ⟨_, List.mem_map_of_mem hpath, rfl⟩ fun i hi hlocal => ?_
  obtain ⟨other, hother, rfl⟩ := List.mem_map.1 hi
  have heq : pkg.shortName other = pkg.shortName path := Option.some.inj hlocal
  rw [List.inj_on_of_nodup_map h.distinct hother hpath heq]

theorem ofInterface_eq_ok {pkg : Package} {interface : String} {destination : PackageId}
    {config : Config} {t : HookFile} :
    HookFile.ofInterface pkg interface destination config = .ok t ↔
      ∃ method, pkg.extract interface = .ok method ∧
        HookFile.ofMethod config method ⟨pkg.id, destination⟩ = .ok t := by
  rw [ofInterface, except_bind_eq_ok]
  simp only [mapError_eq_ok]

end HookFile

/-- The packages of the hooked method are known, the own one or imported ones. -/
theorem Package.WellTyped.knows_of_extract {pkg : Package} (hpkg : pkg.WellTyped)
    {interface : String} {method : HookedMethod} (h : pkg.extract interface = .ok method)
    {package : PackageId} {n : String}
    (hn : Mentions package (method.params.map HookedParam.type) n) : pkg.Knows package := by
  obtain ⟨-, m, honly, -, rfl⟩ := Package.extract_eq_ok.1 h
  obtain ⟨s, hs, hhas⟩ := hn
  rw [type_hookedParams] at hs
  obtain ⟨p, hp, heq⟩ := List.mem_map.1 hs
  have hknown := (hpkg.onlyMethod honly).types s (Signature.mem_types.2 (.inl ⟨p, hp, heq⟩))
  exact (hknown _ hhas).2

/-- **What the qualifiers of a generated file denote.** The types of the parameters and the interface
are written behind the short names of their packages, or bare if the file is in their package. What is
imported are the paths of these packages and, in a thread-safe hook, that of the mutex. If the short
names of the imports are unambiguous, each qualifier denotes the package that owns the type, provided
that no package is imported by its own files. -/
theorem qualifiers_of_ofInterface {path interface : String} {sources : List SourceText}
    {pkg : Package} {destination : PackageId} {config : Config} {t : HookFile}
    (hpkg : Package.ofSources path sources = .ok pkg)
    (hplan : HookFile.ofInterface pkg interface destination config = .ok t) :
    ∃ method, pkg.extract interface = .ok method ∧
      t.declarationArgs.map String.toList = (forwarded 0 method.params).map
        (textOf ∘ HookedParam.pieces (shortIn destination.path)) ∧
      t.interfaceRef = (if pkg.id.path = destination.path then config.source.object
        else pkg.id.name ++ "." ++ config.source.object) ∧
      (∀ imported, imported ∈ t.fileImports ↔
        (imported ≠ destination.path ∧ (imported = pkg.id.path ∨ ∃ package n,
          Mentions package (method.params.map HookedParam.type) n ∧ package.path = imported)) ∨
        config.threadSafe = true ∧ imported = HookFile.syncPackage) ∧
      (t.Unambiguous pkg → ∀ package, (package = pkg.id ∨
          ∃ n, Mentions package (method.params.map HookedParam.type) n) →
        package.path ≠ destination.path → (package.path = pkg.id.path → package = pkg.id) →
        (t.scope pkg destination).import? package.name = some package ∧
          package.name ∉ t.declaredTypes) := by
  obtain ⟨name, files, hloads, rfl⟩ := Package.ofSources_eq_ok.1 hpkg
  obtain ⟨method, hmethod, hplan⟩ := HookFile.ofInterface_eq_ok.1 hplan
  have hsettles := HookFile.settles_of_ofMethod hplan
  refine ⟨method, hmethod, hsettles.declarationArgs, ?_, fun imported => ?_, ?_⟩
  · rw [hsettles.interfaceRef, Target.interfaceRef, Target.samePackage]
    simp
  · rw [HookFile.mem_fileImports, hsettles.imports, hsettles.threadSafe]
    simp only [or_comm]
  · intro hclear package hpackage hforeign hown
    -- a package that a type mentions was imported by a file, or is the own one
    have hknows : (linkFiles path name files).Knows package :=
      hpackage.elim .inl fun ⟨_, hn⟩ => hloads.wellTyped.knows_of_extract hmethod hn
    have hmem : package.path ∈ t.fileImports := by
      refine HookFile.mem_fileImports.2 (.inl ((hsettles.imports _).2 ⟨hforeign, ?_⟩))
      exact hpackage.elim (fun heq => .inr (congrArg PackageId.path heq))
        fun ⟨n, hn⟩ => .inl ⟨package, n, hn, rfl⟩
    have hname := hknows.name_eq hown
    have hdenotes := hclear.import? destination hmem
    have hfree := hclear.free _ hmem
    rw [hname] at hdenotes hfree
    exact ⟨hdenotes, hfree⟩

/-- The hook for `Sink` writes the types of `context` and of its own package behind their names. -/
theorem qualifiers_of_alertSources :
    ∃ pkg t, Package.ofSources "example.com/alert" alertSources = .ok pkg ∧
      HookFile.ofInterface pkg "Sink" ⟨"example.com/relay", "relay"⟩ relayConfig = .ok t ∧
      ∃ method, pkg.extract "Sink" = .ok method ∧
        t.declarationArgs.map String.toList = (forwarded 0 method.params).map
          (textOf ∘ HookedParam.pieces (shortIn "example.com/relay")) ∧
        t.interfaceRef = (if pkg.id.path = "example.com/relay" then "Sink"
          else pkg.id.name ++ "." ++ "Sink") ∧
        (∀ imported, imported ∈ t.fileImports ↔
          (imported ≠ "example.com/relay" ∧ (imported = pkg.id.path ∨ ∃ package n,
            Mentions package (method.params.map HookedParam.type) n ∧ package.path = imported)) ∨
          relayConfig.threadSafe = true ∧ imported = HookFile.syncPackage) ∧
        (t.Unambiguous pkg → ∀ package, (package = pkg.id ∨
            ∃ n, Mentions package (method.params.map HookedParam.type) n) →
          package.path ≠ "example.com/relay" → (package.path = pkg.id.path → package = pkg.id) →
          (t.scope pkg ⟨"example.com/relay", "relay"⟩).import? package.name = some package ∧
            package.name ∉ t.declaredTypes) := by
  obtain ⟨pkg, method, t, hpkg, hmethod, hplan, -⟩ := exists_hook_of_alertSources
  have hplan := HookFile.ofInterface_eq_ok.2 ⟨method, hmethod, hplan⟩
  exact ⟨pkg, t, hpkg, hplan, qualifiers_of_ofInterface hpkg hplan⟩

/-- An interface whose method takes types of two packages with one short name. -/
def twoRands : List SourceText := [
  ⟨"pick.go", "package pick\nimport (\n\tcrypto \"crypto/rand\"\n\tmath \"math/rand\"\n)\n" ++
    "type Picker interface \x7b Pick(a crypto.Source, b math.Source) \x7d\n"⟩]

/-- **Short names can be ambiguous.** The generated file imports two packages with one short name, and
writes different types alike. -/
theorem shortNames_of_twoRands :
    ∃ pkg t, Package.ofSources "m/pick" twoRands = .ok pkg ∧
      HookFile.ofInterface pkg "Picker" ⟨"m/hooks", "hooks"⟩
        ⟨⟨"./pick", "Picker"⟩, ⟨"./hooks", "Picks"⟩, false, .noop, "picks.go"⟩ = .ok t ∧
      t.fileImports = ["crypto/rand", "m/pick", "math/rand"] ∧
      pkg.shortName "crypto/rand" = "rand" ∧ pkg.shortName "math/rand" = "rand" ∧
      t.declarationArgs = ["a rand.Source", "b rand.Source"] := by
  obtain ⟨pkg, method, t, hpkg, hmethod, hplan, hcheck⟩ := exists_plan_of_check "m/pick" "Picker" twoRands
    ⟨"m/hooks", "hooks"⟩ ⟨⟨"./pick", "Picker"⟩, ⟨"./hooks", "Picks"⟩, false, .noop, "picks.go"⟩
    (fun pkg _ t => decide (t.fileImports = ["crypto/rand", "m/pick", "math/rand"] ∧
      pkg.shortName "crypto/rand" = "rand" ∧ pkg.shortName "math/rand" = "rand" ∧
      t.declarationArgs = ["a rand.Source", "b rand.Source"])) (by decide) (by
      simp only [twoRands, List.map_cons, List.map_nil, SourceText.chars, String.toList_append]
      repeat rw [String.toList_ofList]
      decide +kernel)
  exact ⟨pkg, t, hpkg, HookFile.ofInterface_eq_ok.2 ⟨method, hmethod, hplan⟩,
    of_decide_eq_true hcheck⟩

end Multicast
