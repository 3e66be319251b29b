import Multicast.Proofs.Qualifiers

/-!
# Names that clash

A generated file declares names of its own: the fields and methods of the hook, and three types. A
plan is refused if the hooked method or the hook is called like one of them, so neither the members of
the hook nor the types of the file clash with each other. The interface has a name too, and this one
is compared with that of the hook alone. It is declared beside the types of the file if the hook joins
its package, and the entries have a field of that name, which hides a method of the same name. So the
names of a file that is planned are distinct just where the interface is called neither like a type
that every file declares, nor like its own method (`HookFile.distinct_iff_of_ofMethod`); an interface
that is called so is hooked nevertheless (`not_distinct_of_dockSources`).
-/

namespace Multicast

open Source Syntax

namespace HookFile

/-- The fields and methods of the hook, the mutex included. -/
def memberNames (t : HookFile) : List String :=
  ["list", "mu", "Append", "remove", t.methodName]

/-- A line of the file declares a member of the hook, as a field or as a method. -/
def WritesMember (t : HookFile) (n : String) : Prop :=
  ∃ rest, "\t" ++ n ++ " " ++ rest ∈ t.lines ∨ t.methodLine (n ++ "(" ++ rest) ∈ t.lines

/-- Every member is written, the mutex if the hook is thread-safe. -/
theorem writesMember_of_mem {t : HookFile} {n : String} (h : n ∈ t.memberNames)
    (hmutex : n = "mu" → t.threadSafe = true) : t.WritesMember n := by
  simp only [memberNames, List.mem_cons, List.not_mem_nil, or_false] at h
  rcases h with rfl | rfl | rfl | rfl | rfl
  · exact ⟨"[]*hooked", .inl (by simp [lines, typeLines])⟩
  · exact ⟨"  sync.Mutex", .inl (by simp [lines, typeLines, hmutex])⟩
  · have htext : "Append" ++ "(" ++ ("item " ++ t.interfaceRef ++ ") Cancel") =
        "Append(item " ++ t.interfaceRef ++ ") Cancel" := by simp [← String.toList_inj]
    exact ⟨_, .inr (by rw [htext]; simp [lines, appendLines])⟩
  · exact ⟨"entry *hooked)", .inr (by simp [lines, removeLines])⟩
  · refine ⟨", ".intercalate t.declarationArgs ++ ")", .inr ?_⟩
    simp [lines, forwardLines, String.append_assoc]

/-- **The names of a generated file are distinct**, where the interface is called `interface`, and is
declared beside the types of the file if `samePackage` holds. -/
structure Distinct (t : HookFile) (interface : String) (samePackage : Bool) : Prop where
  members : t.memberNames.Nodup
  types : t.declaredTypes.Nodup
  beside : samePackage = true → interface ∉ t.declaredTypes
  /-- The field that holds the interface in an entry does not hide the hooked method. -/
  entry : interface ≠ t.methodName

section

variable {config : Config} {method : HookedMethod} {target : Target}

/-- **What a plan asks of names**: the method is called like no member of every hook, and the hook
like no type of every file, nor like the interface beside it. -/
theorem exists_ofMethod_iff :
    (∃ t, HookFile.ofMethod config method target = .ok t) ↔
      method.name ∉ reservedMethods ∧ config.destination.hookName ∉ reservedTypes ∧
        (target.samePackage = true → config.destination.hookName ≠ config.source.object) := by
  rw [ofMethod]
  by_cases hmethod : method.name ∈ reservedMethods
  · simp [hmethod]
  by_cases hhook : config.destination.hookName ∈ reservedTypes ∨
      (target.samePackage ∧ config.destination.hookName = config.source.object)
  · simp only [if_neg hmethod, if_pos hhook, reduceCtorEq, exists_false, false_iff]
    rintro ⟨-, htypes, hinterface⟩
    exact hhook.elim htypes fun h => hinterface h.1 h.2
  · simp only [if_neg hmethod, if_neg hhook]
    obtain ⟨htypes, hinterface⟩ := not_or.1 hhook
    exact iff_of_true ⟨_, rfl⟩ ⟨hmethod, htypes, fun h heq => hinterface ⟨h, heq⟩⟩

variable {t : HookFile} (h : HookFile.ofMethod config method target = .ok t)

include h

/-- The hook has a name of its own. -/
theorem hookName_not_mem_of_ofMethod : config.destination.hookName ∉ reservedTypes :=
  (exists_ofMethod_iff.1 ⟨t, h⟩).2.1

theorem nodup_memberNames_of_ofMethod : t.memberNames.Nodup := by
  have hmethod := (exists_ofMethod_iff.1 ⟨t, h⟩).1
  rw [← (settles_of_ofMethod h).methodName] at hmethod
  simp only [reservedMethods, List.mem_cons, List.not_mem_nil, or_false, not_or] at hmethod
  obtain ⟨happend, hremove, hlist, hmu⟩ := hmethod
  simp [memberNames, Ne.symm happend, Ne.symm hremove, Ne.symm hlist, Ne.symm hmu]

theorem nodup_declaredTypes_of_ofMethod : t.declaredTypes.Nodup := by
  have hhook := hookName_not_mem_of_ofMethod h
  rw [← (settles_of_ofMethod h).hookName] at hhook
  simpa [declaredTypes, reservedTypes] using hhook

/-- **Which names clash in a file that is planned**: none of those that the file declares by itself,
each in a line of its own, and only that of the interface with a type that every file declares, or with
the hooked method. -/
theorem distinct_iff_of_ofMethod :
    (∀ n ∈ t.memberNames, (n = "mu" → t.threadSafe = true) → t.WritesMember n) ∧
      t.memberNames.Nodup ∧ t.declaredTypes.Nodup ∧
      (target.samePackage = true → t.hookName ≠ config.source.object) ∧
      (t.Distinct config.source.object target.samePackage ↔
        (target.samePackage = true → config.source.object ∉ reservedTypes) ∧
          config.source.object ≠ method.name) := by
  have hsettles := settles_of_ofMethod h
  obtain ⟨-, -, hinterface⟩ := exists_ofMethod_iff.1 ⟨t, h⟩
  rw [← hsettles.hookName] at hinterface
  have hmembers := nodup_memberNames_of_ofMethod h
  have htypes := nodup_declaredTypes_of_ofMethod h
  refine ⟨fun _ => writesMember_of_mem, hmembers, htypes, hinterface,
    fun hdistinct => ⟨fun hsame hmem => ?_, ?_⟩, fun hclear => ?_⟩
  · exact hdistinct.beside hsame (List.mem_cons_of_mem _ hmem)
  · exact hsettles.methodName ▸ hdistinct.entry
  · refine ⟨hmembers, htypes, fun hsame hmem => ?_, hsettles.methodName.symm ▸ hclear.2⟩
    rcases List.mem_cons.1 hmem with heq | hmem
    · exact hinterface hsame heq.symm
    · exact hclear.1 hsame hmem

end

end HookFile

/-- The names of the hook for `Sink` are distinct: the interface is called like nothing else. -/
theorem HookFile.distinct_relay :
    ∃ t, HookFile.ofMethod relayConfig ⟨"Deliver", []⟩
        ⟨⟨"example.com/alert", "alert"⟩, ⟨"example.com/relay", "relay"⟩⟩ = .ok t ∧
      t.memberNames.Nodup ∧ t.declaredTypes.Nodup ∧ t.Distinct "Sink" false := by
  obtain ⟨t, ht⟩ : ∃ t, HookFile.ofMethod relayConfig ⟨"Deliver", []⟩
      ⟨⟨"example.com/alert", "alert"⟩, ⟨"example.com/relay", "relay"⟩⟩ = .ok t := ⟨_, rfl⟩
  obtain ⟨-, hmembers, htypes, -, hiff⟩ := HookFile.distinct_iff_of_ofMethod ht
  exact ⟨t, ht, hmembers, htypes, hiff.2 ⟨by decide, by decide⟩⟩

/-- A package with an interface that is called like its method, and one that is called like a type of
every generated file. -/
def dockSources : List SourceText := [
  ⟨"dock.go", "package dock\ntype Dock interface \x7b Dock(ship string) \x7d\n" ++
    "type Cancel interface \x7b Stop() \x7d\n"⟩]

/-- A hook for an interface of `dockSources` next to it. -/
def dockConfig (interface hook : String) : Config where
  source := ⟨"./dock", interface⟩
  destination := ⟨"./dock", hook⟩

/-- **Interfaces whose names clash are hooked nevertheless.** -/
theorem not_distinct_of_dockSources :
    ∃ pkg t t', Package.ofSources "m/dock" dockSources = .ok pkg ∧
      HookFile.ofInterface pkg "Dock" ⟨"m/dock", "dock"⟩ (dockConfig "Dock" "Docks") = .ok t ∧
      t.methodName = "Dock" ∧ ¬ t.Distinct "Dock" true ∧
      HookFile.ofInterface pkg "Cancel" ⟨"m/dock", "dock"⟩ (dockConfig "Cancel" "Cancels") = .ok t' ∧
      "Cancel" ∈ t'.declaredTypes ∧ ¬ t'.Distinct "Cancel" true := by
  obtain ⟨pkg, method, t, hpkg, hmethod, hplan, hcheck⟩ := exists_plan_of_check "m/dock" "Dock"
    dockSources ⟨"m/dock", "dock"⟩ (dockConfig "Dock" "Docks")
    (fun _ _ t => decide (t.methodName = "Dock")) (by decide) (by
      simp only [dockSources, List.map_cons, List.map_nil, SourceText.chars, String.toList_append]
      repeat rw [String.toList_ofList]
      decide +kernel)
  obtain ⟨pkg', method', t', hpkg', hmethod', hplan', hcheck'⟩ := exists_plan_of_check "m/dock" "Cancel"
    dockSources ⟨"m/dock", "dock"⟩ (dockConfig "Cancel" "Cancels")
    (fun _ _ t => decide ("Cancel" ∈ t.declaredTypes)) (by decide) (by
      simp only [dockSources, List.map_cons, List.map_nil, SourceText.chars, String.toList_append]
      repeat rw [String.toList_ofList]
      decide +kernel)
  obtain rfl : pkg = pkg' := Except.ok.inj (hpkg.symm.trans hpkg')
  have hname : t.methodName = "Dock" := of_decide_eq_true hcheck
  have hmem : "Cancel" ∈ t'.declaredTypes := of_decide_eq_true hcheck'
  exact ⟨pkg, t, t', hpkg, HookFile.ofInterface_eq_ok.2 ⟨method, hmethod, hplan⟩, hname,
    fun hdistinct => hdistinct.entry hname.symm,
    HookFile.ofInterface_eq_ok.2 ⟨method', hmethod', hplan'⟩, hmem,
    fun hdistinct => hdistinct.beside rfl hmem⟩

end Multicast
