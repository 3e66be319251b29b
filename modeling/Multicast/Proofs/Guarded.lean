import Multicast.Proofs.Lines
import Multicast.Proofs.Planned

/-!
# What a guard adds

Whether a hook is thread-safe has no say in whether it can be planned, and in a plan it decides one
slot. In the text of the file it decides a few lines. The import of the mutex joins the others, in
its place and once. The mutex itself stands behind the list of the entries, and the lines that take
it stand behind every line that opens a method, of which there are three. Nothing else changes
(`HookFile.guard_adds_lines`).

The names in a file may be any texts, and one of them may look like a line of the file. So the list
of the entries is the first line that looks like it, and a line that opens a method is known by how it
begins, which no other line does, whatever the names are.

## Lines that are added

Both files are rendered from plans that differ in one slot, and so both are lists of lines from one
template. The lines of the guarded file are those of the other one with lines added at places that are
told by lines: in front of an import that is greater, behind the line that declares the list, and behind
the lines that open a method. What has to be shown of the template is that no other line looks like one of
these, whatever the names are. The imports are no part of this; they are in order in both files.
-/

namespace Multicast

open Source

namespace Ascending

/-- What is there already is not added. -/
theorem insert_eq_self {path : String} {paths : List String} (hsorted : Sorted id paths)
    (h : path ∈ paths) : insert id path paths = paths := by
  induction paths with
  | nil => cases h
  | cons p paths ih =>
    obtain ⟨hp, hpaths⟩ := List.pairwise_cons.1 hsorted
    simp only [insert, id_eq]
    rcases List.mem_cons.1 h with rfl | h
    · rw [if_neg (String.lt_irrefl _), if_pos rfl]
    · have hlt : p < path := hp path h
      rw [if_neg (String.lt_asymm hlt), if_neg (String.ne_of_lt hlt).symm, ih hpaths h]

end Ascending

namespace HookFile

/-! ### Plans -/

/-- The same file, with a guard or without. -/
def withGuard (t : HookFile) (threadSafe : Bool) : HookFile :=
  { t with threadSafe }

theorem ofMethod_threadSafe (config : Config) (threadSafe : Bool) (method : HookedMethod)
    (target : Target) :
    ofMethod { config with threadSafe } method target =
      (ofMethod config method target).map (·.withGuard threadSafe) := by
  rw [ofMethod, ofMethod]
  split
  · rfl
  · split <;> rfl

/-- A guard is no reason to refuse a plan, and it settles no other slot of the file. -/
theorem ofInterface_threadSafe (pkg : Package) (interface : String) (destination : PackageId)
    (config : Config) (threadSafe : Bool) :
    ofInterface pkg interface destination { config with threadSafe } =
      (ofInterface pkg interface destination config).map (·.withGuard threadSafe) := by
  rw [ofInterface, ofInterface]
  cases pkg.extract interface with
  | error e => rfl
  | ok method =>
    change (ofMethod _ method _).mapError _ = ((ofMethod _ method _).mapError _).map _
    rw [ofMethod_threadSafe]
    cases ofMethod config method ⟨pkg.id, destination⟩ <;> rfl

/-! ### Lines -/

/-- What stands in front of the imports. -/
def preambleLines (t : HookFile) : List String :=
  [header, "", "package " ++ t.packageName, ""]

/-- What stands behind the imports. -/
def bodyLines (t : HookFile) : List String :=
  t.typeLines ++ t.appendLines ++ t.removeLines ++ t.forwardLines

theorem render_eq (t : HookFile) :
    t.render = unlines (t.preambleLines ++ importLines t.fileImports ++ t.bodyLines) := by
  simp [render, lines, unlines, preambleLines, bodyLines]

/-- The field of the entries. -/
def listLine : String := "\tlist []*hooked"

/-- The field of the mutex. -/
def mutexLine : String := "\tmu   sync.Mutex"

/-- Lines with a mutex behind the list of the entries. -/
def addMutex : List String → List String
  | [] => []
  | line :: lines => if line = listLine then line :: mutexLine :: lines else line :: addMutex lines

/-- Whether a line opens a method of the hook. -/
def beginsMethod (line : String) : Bool :=
  "func (".toList.isPrefixOf line.toList

/-- Lines with others added behind those that open a method. -/
def addToMethods (added lines : List String) : List String :=
  lines.flatMap fun line => if beginsMethod line then line :: added else [line]

/-- The lines that open the methods of the hook, in their order. -/
def methodLines (t : HookFile) : List String := [
  t.methodLine ("Append(item " ++ t.interfaceRef ++ ") Cancel"),
  t.methodLine "remove(entry *hooked)",
  t.methodLine (t.methodName ++ "(" ++ ", ".intercalate t.declarationArgs ++ ")")]

/-- The lines that take the mutex for the rest of a method, and an empty one. -/
def guardLines (t : HookFile) : List String :=
  ["\t" ++ t.receiver ++ ".mu.Lock()", "\tdefer " ++ t.receiver ++ ".mu.Unlock()", ""]

/-! ### Lines of a guard -/

theorem addMutex_append {lines : List String} (h : listLine ∉ lines) (rest : List String) :
    addMutex (lines ++ listLine :: rest) = lines ++ listLine :: mutexLine :: rest := by
  induction lines with
  | nil => simp [addMutex]
  | cons line lines ih =>
    obtain ⟨hline, hlines⟩ := not_or.1 (mt List.mem_cons.2 h)
    rw [List.cons_append, addMutex, if_neg (Ne.symm hline), ih hlines]
    rfl

theorem addToMethods_append (added lines lines' : List String) :
    addToMethods added (lines ++ lines') = addToMethods added lines ++ addToMethods added lines' :=
  List.flatMap_append

section

variable (t : HookFile)

/-- A guard adds a mutex to the types. -/
theorem addMutex_typeLines (more : List String) :
    addMutex ((t.withGuard false).typeLines ++ more) = (t.withGuard true).typeLines ++ more := by
  -- neither of the two lines before the list looks like it, whatever the names are
  have hopening : listLine ∉ (t.withGuard false).typeLines.take 2 := by
    simp [typeLines, listLine, ← String.toList_inj]
  exact addMutex_append hopening ((t.withGuard false).typeLines.drop 3 ++ more)

theorem addToMethods_typeLines (added : List String) :
    addToMethods added (t.withGuard true).typeLines = (t.withGuard true).typeLines := by
  simp [addToMethods, typeLines, withGuard, beginsMethod]

theorem guard_appendLines :
    addToMethods t.guardLines (t.withGuard false).appendLines = (t.withGuard true).appendLines := by
  simp [addToMethods, appendLines, lockLines, guardLines, methodLine, withGuard, beginsMethod]

theorem guard_removeLines :
    addToMethods t.guardLines (t.withGuard false).removeLines = (t.withGuard true).removeLines := by
  simp [addToMethods, removeLines, lockLines, guardLines, methodLine, withGuard, beginsMethod]

theorem guard_forwardLines :
    addToMethods t.guardLines (t.withGuard false).forwardLines =
      (t.withGuard true).forwardLines := by
  simp [addToMethods, forwardLines, lockLines, guardLines, methodLine, withGuard, beginsMethod]

/-- Behind the imports, a guard adds a mutex, and lines that take it in each method. -/
theorem guard_bodyLines :
    addToMethods t.guardLines (addMutex (t.withGuard false).bodyLines) =
      (t.withGuard true).bodyLines := by
  simp only [bodyLines, List.append_assoc, addMutex_typeLines, addToMethods_append,
    addToMethods_typeLines, guard_appendLines, guard_removeLines, guard_forwardLines]

/-- Three lines open a method. -/
theorem filter_beginsMethod_bodyLines :
    (t.withGuard false).bodyLines.filter beginsMethod = t.methodLines := by
  simp [bodyLines, typeLines, appendLines, removeLines, forwardLines, lockLines, methodLines, methodLine,
    withGuard, beginsMethod]

end

/-! ### Files with and without a guard -/

/-- **The text of a file with a guard**, from that of the same file without one. -/
structure Guards (t : HookFile) : Prop where
  without : (t.withGuard false).render = unlines (t.preambleLines ++
    importLines (t.withGuard false).fileImports ++ (t.withGuard false).bodyLines)
  guarded : (t.withGuard true).render = unlines (t.preambleLines ++
    importLines (t.withGuard true).fileImports ++
      addToMethods t.guardLines (addMutex (t.withGuard false).bodyLines))
  /-- These are the lines that others are added behind. -/
  methods : (t.withGuard false).bodyLines.filter beginsMethod = t.methodLines
  sorted : ∀ threadSafe, Ascending.Sorted id (t.withGuard threadSafe).fileImports
  imports : ∀ path, path ∈ (t.withGuard true).fileImports ↔
    path = syncPackage ∨ path ∈ (t.withGuard false).fileImports
  /-- An import block that has the import already stays as it is. -/
  present : syncPackage ∈ t.imports →
    importLines (t.withGuard true).fileImports = importLines (t.withGuard false).fileImports
  /-- If there is no import block, there comes to be one. -/
  absent : t.imports = [] → importLines (t.withGuard false).fileImports = [] ∧
    importLines (t.withGuard true).fileImports = ["import (", "\t\"sync\"", ")", ""]

theorem guards (t : HookFile) : t.Guards where
  without := render_eq _
  guarded := by
    rw [guard_bodyLines]
    exact render_eq _
  methods := t.filter_beginsMethod_bodyLines
  sorted threadSafe := by
    have hsorted : Ascending.Sorted id (Ascending.ofList id t.imports) :=
      Ascending.sorted_ofList t.imports
    cases threadSafe with
    | false => exact hsorted
    | true => exact Ascending.sorted_insert _ hsorted
  imports path := Ascending.mem_insert
  present hsync := by
    have himports : (t.withGuard true).fileImports = (t.withGuard false).fileImports :=
      Ascending.insert_eq_self (Ascending.sorted_ofList _) (Ascending.mem_ofList.2 hsync)
    rw [himports]
  absent hnone := by
    have hoff : (t.withGuard false).fileImports = [] := congrArg (Ascending.ofList id) hnone
    have hon : (t.withGuard true).fileImports = [syncPackage] :=
      congrArg (Ascending.insert id syncPackage) hoff
    rw [hoff, hon]
    exact ⟨rfl, rfl⟩

/-- **What a guard adds to a file**: the import of the mutex, the mutex itself, and the lines that
take it at the front of the three methods. Whether a hook can be planned does not depend on it. -/
theorem guard_adds_lines (pkg : Package) (interface : String) (destination : PackageId)
    (config : Config) (t : HookFile) :
    ((∃ error,
        ofInterface pkg interface destination { config with threadSafe := false } = .error error ∧
        ofInterface pkg interface destination { config with threadSafe := true } = .error error) ∨
      ∃ file : HookFile,
        ofInterface pkg interface destination { config with threadSafe := false } =
          .ok (file.withGuard false) ∧
        ofInterface pkg interface destination { config with threadSafe := true } =
          .ok (file.withGuard true)) ∧ t.Guards := by
  refine ⟨?_, t.guards⟩
  have hplan := ofInterface_threadSafe pkg interface destination config
  cases hresult : ofInterface pkg interface destination config with
  | error error =>
    rw [hresult] at hplan
    exact .inl ⟨error, hplan false, hplan true⟩
  | ok file =>
    rw [hresult] at hplan
    exact .inr ⟨file, hplan false, hplan true⟩

end HookFile

end Multicast
