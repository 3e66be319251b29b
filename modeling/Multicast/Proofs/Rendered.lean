import Multicast.Proofs.HookText

/-!
# Every hook file is read

A hook file need not come from a plan to be read. If its slots hold names, its imports can be told
apart by the names that their paths suggest, its interface is a type of its own package or of an
import, and its arguments are those of a forwarding method, then it is read
(`HookFile.exists_file_of_forwarding`). What it declares are three types, whatever path the package
has. Nothing is asked of the paths that the forwarding method mentions: types in parentheses behind
a method are skipped, and so they may refer to packages that the file does not import.

## Conditions on the slots alone

Planned files satisfy more than is needed to read them. Here the slots are taken for themselves, and each
condition is on one of them, or on the imports together: their paths have to suggest different names,
since the file has no other way to tell them apart. The interface is a parameter of the statement by what
it denotes, which decides the type of the field and whether a name is left open.
-/

namespace Multicast

open Source Syntax

/-! ### The interface -/

/-- **What a reference to an interface denotes** in a file of the package `own` with imports at these
paths: a predeclared type, a type of the package, or a type of an import. -/
inductive InterfaceRef.Denotes (own : PackageId) (paths : Paths) : InterfaceRef → GoType → Prop
  | predeclared {name : String} (hname : Kind.identifier.Writes name) (h : name ∈ predeclared) :
    Denotes own paths (.own name) (.basic name)
  | own {name : String} (hname : Kind.identifier.Writes name) (h : name ∉ predeclared) :
    Denotes own paths (.own name) (.named own name)
  | imported {path name : String} (hname : Kind.identifier.Writes name) (h : path ∈ paths)
    (hpackage : Kind.identifier.Writes (PackageId.guessName path)) :
    Denotes own paths (.imported (PackageId.guessName path) name) (.named (.ofPath path) name)

section

variable {own : PackageId} {paths : Paths} {ref : InterfaceRef} {interface : GoType}

theorem InterfaceRef.Denotes.spelled (h : ref.Denotes own paths interface) : ref.Spelled := by
  cases h with
  | predeclared hname => exact hname
  | own hname => exact hname
  | imported hname _ hpackage => exact ⟨hpackage, hname⟩

/-- Imports that suggest different names let a reference mean what it denotes. -/
theorem InterfaceRef.Denotes.means (h : ref.Denotes own paths interface)
    (hdistinct : (paths.map PackageId.guessName).Nodup) :
    ref.Means ⟨own, paths.map plainImport⟩ interface := by
  cases h with
  | @predeclared name _ h =>
    have hmeaning : Scope.meaning ⟨own, paths.map plainImport⟩ name = .basic name := if_pos h
    exact hmeaning ▸ .own name
  | @own name _ h =>
    have hmeaning : Scope.meaning ⟨own, paths.map plainImport⟩ name = .named own name := if_neg h
    exact hmeaning ▸ .own name
  | imported _ hpath _ => exact .imported (import?_plainImport hdistinct hpath) _

end

/-! ### The arguments -/

/-- The declared types that can be written in the package at a path, behind the names of their
packages unless they belong to it. -/
def QualifiedIn (destination : String) (package : PackageId) (n : String) : Prop :=
  Kind.identifier.Writes n ∧ (package.path ≠ destination → Kind.identifier.Writes package.name)

theorem spelled_qualifiedIn (destination : String) :
    Spelled (shortIn destination) (QualifiedIn destination) IsPlainLength where
  name h := h.1
  qualifier {package n} h := by
    rw [shortIn]
    split
    next => exact .inl rfl
    next hne => exact .inr (h.2 hne)
  length h := h.imp fun _ h => h.1

/-- **The arguments of a forwarding method can be listed**, as they are declared and as they are
passed on. -/
theorem listable_forwarding {destination : String} {method : HookedMethod}
    (hparams : ∀ p ∈ method.params, (p.name = "" ∨ Kind.identifier.Writes p.name) ∧
      p.type.WellFormed (QualifiedIn destination) IsPlainLength) (paths : Paths) :
    Listable ((method.forwarding destination).run paths).1.declaration ∧
      Listable ((method.forwarding destination).run paths).1.call := by
  obtain ⟨forwarding, hdeclaration, hcall, -, packages, hnotes, -⟩ :=
    renders_forwardAll destination 0 method.params
  have hrun : ((method.forwarding destination).run paths).1 = forwarding :=
    congrArg Prod.fst (hnotes paths)
  have hnames := writes_forwarded (fun p hp => (hparams p hp).1) 0
  have htypes : ∀ p ∈ forwarded 0 method.params,
      p.type.WellFormed (QualifiedIn destination) IsPlainLength := by
    intro p hp
    obtain ⟨q, hq, heq⟩ := List.mem_map.1 (type_mem_of_forwarded hp)
    exact heq ▸ (hparams q hq).2
  rw [hrun]
  constructor
  · exact listable_declared hdeclaration hnames fun p hp =>
      (htypes p hp).stable_and_balanced (spelled_qualifiedIn destination)
  · rw [hcall]
    exact listable_passed hnames

/-! ### The file -/

/-- **A hook file is read, and declares its three types.** Its imports are read without names of their
own, in their order, and the mutex of a thread-safe hook belongs to the import at `sync`. -/
theorem HookFile.exists_file_of_forwarding {t : HookFile} {ref : InterfaceRef} {interface : GoType}
    {method : HookedMethod} {path destination : String} {paths : Paths}
    (hpackage : Kind.identifier.Writes t.packageName ∧ t.packageName ≠ "_")
    (hnames : ∀ n ∈ [t.hookName, t.methodName, t.receiver, t.entry], Kind.identifier.Writes n)
    (himports : ∀ imported ∈ t.fileImports, Importable imported ∧ imported ≠ "")
    (hdistinct : (t.fileImports.map PackageId.guessName).Nodup)
    (href : ref.text = t.interfaceRef)
    (hinterface : ref.Denotes ⟨path, t.packageName⟩ t.fileImports interface)
    (hparams : ∀ p ∈ method.params, (p.name = "" ∨ Kind.identifier.Writes p.name) ∧
      p.type.WellFormed (QualifiedIn destination) IsPlainLength)
    (hdeclared : t.declarationArgs = ((method.forwarding destination).run paths).1.declaration)
    (hpassed : t.callArgs = ((method.forwarding destination).run paths).1.call) (file : String) :
    ∃ new, parseFile file t.render path = .ok new ∧ new.package = t.packageName ∧
      new.imports = t.fileImports.map plainImport ∧
      new.declarations.map Declaration.object =
        t.objects ⟨path, t.packageName⟩ (.ofPath syncPackage) interface := by
  simp only [List.forall_mem_cons] at hnames
  obtain ⟨hhook, hmethod, hreceiver, hentry, -⟩ := hnames
  obtain ⟨hdeclaration, hcall⟩ := listable_forwarding hparams paths
  have hsound : t.Sound ref :=
    { package := hpackage, imports := himports, hook := hhook, interface := ⟨href, hinterface.spelled⟩,
      method := hmethod, receiver := hreceiver, entry := hentry,
      declarationArgs := hdeclared ▸ hdeclaration, callArgs := hpassed ▸ hcall }
  -- no other import suggests the name of the mutex's package
  have hmutex (hsafe : t.threadSafe = true) :
      (t.ownScope path).import? "sync" = some (.ofPath syncPackage) := by
    have hguess : PackageId.guessName syncPackage = "sync" := by decide
    exact hguess ▸ import?_plainImport hdistinct (mem_fileImports.2 (.inr ⟨hsafe, rfl⟩))
  obtain ⟨new, hread, hname, himported, hobjects, -⟩ :=
    hsound.exists_file hmutex (hinterface.means hdistinct) file
  exact ⟨new, hread, hname, himported, hobjects⟩

/-- A method that takes an imported type and any number of arrays. -/
def deliverMethod : HookedMethod where
  name := "Deliver"
  params := [⟨"ctx", .named (.ofPath "context") "Context", false⟩,
    ⟨"_", .slice (.array "4" (.named (.ofPath "example.com/alert") "Target")), true⟩]

/-- A thread-safe hook for `deliverMethod`. -/
def relayHook : HookFile where
  packageName := "relay"
  imports := ["example.com/alert", "context"]
  hookName := "Relay"
  interfaceRef := "alert.Sink"
  methodName := "Deliver"
  declarationArgs := ["ctx context.Context", "arg1 ...[4]alert.Target"]
  callArgs := ["ctx", "arg1..."]
  threadSafe := true
  receiver := "h"
  entry := "entry"

theorem HookFile.exists_file_of_deliverMethod :
    ∃ new, parseFile "relay.go" relayHook.render "example.com/relay" = .ok new ∧
      new.package = "relay" ∧
      new.imports = ["context", "example.com/alert", "sync"].map plainImport ∧
      new.declarations.map Declaration.object =
        relayHook.objects ⟨"example.com/relay", "relay"⟩ (.ofPath syncPackage)
          (.named (.ofPath "example.com/alert") "Sink") := by
  have himports : relayHook.fileImports = ["context", "example.com/alert", "sync"] := by
    decide
  have hplain : ∀ imported ∈ relayHook.fileImports, Importable imported ∧ imported ≠ "" := by
    rw [himports]
    simp only [List.forall_mem_cons]
    refine ⟨⟨.of_all ?_ ?_, ?_⟩, ⟨.of_all ?_ ?_, ?_⟩, ⟨.of_all ?_ ?_, ?_⟩, by simp⟩
    all_goals decide
  have hdistinct : (relayHook.fileImports.map PackageId.guessName).Nodup := by
    rw [himports]
    decide
  have hnames : ∀ n ∈ [relayHook.hookName, relayHook.methodName, relayHook.receiver,
      relayHook.entry], Kind.identifier.Writes n := by
    decide
  have hguess : PackageId.guessName "example.com/alert" = "alert" := by decide
  have hinterface : InterfaceRef.Denotes ⟨"example.com/relay", "relay"⟩ relayHook.fileImports
      (.imported "alert" "Sink") (.named (.ofPath "example.com/alert") "Sink") := by
    rw [himports, ← hguess]
    exact .imported (by decide) (by decide) (by decide)
  have hqualified {path n : String} (hn : Kind.identifier.Writes n)
      (hpackage : Kind.identifier.Writes (PackageId.guessName path)) :
      QualifiedIn "example.com/relay" (.ofPath path) n := ⟨hn, fun _ => hpackage⟩
  have hparams : ∀ p ∈ deliverMethod.params, (p.name = "" ∨ Kind.identifier.Writes p.name) ∧
      p.type.WellFormed (QualifiedIn "example.com/relay") IsPlainLength := by
    simp only [deliverMethod, List.forall_mem_cons, GoType.wellFormed_named,
      GoType.wellFormed_slice, GoType.wellFormed_array]
    refine ⟨⟨.inr ?_, hqualified ?_ ?_⟩, ⟨.inr ?_, ⟨.number, ?_, rfl⟩, hqualified ?_ ?_⟩, by simp⟩
    all_goals decide
  have hargs : relayHook.declarationArgs =
        ((deliverMethod.forwarding "example.com/relay").run []).1.declaration ∧
      relayHook.callArgs = ((deliverMethod.forwarding "example.com/relay").run []).1.call := by
    decide
  obtain ⟨new, hread, hname, himported, hobjects⟩ := exists_file_of_forwarding
    ⟨by decide, by decide⟩ hnames hplain hdistinct rfl hinterface hparams hargs.1 hargs.2
    "relay.go"
  exact ⟨new, hread, hname, himported.trans (congrArg _ himports), hobjects⟩

end Multicast
