import Multicast.Hook.Plan
import Multicast.Proofs.Forwarded

/-!
# What a plan settles

A plan that succeeds settles every slot of the generated file from the hooked method and the target
(`HookFile.Settles`). The imports are the packages that the parameters mention and the package of the
interface, but for the destination. The receiver and the loop variable are names.

## Slots and what fills them

Planning is a chain of checks and computations. If it succeeds, all checks have passed, and each slot is
what the computation for it gives. `Settles` lists the slots with what is known of each. It is stated on
the plan alone, so that what is said of generated files need not unfold how a plan is made.
-/

namespace Multicast

open Source Syntax

/-! ### Ascending paths -/

namespace Ascending

theorem mem_insert {path other : String} {paths : List String} :
    other ∈ insert id path paths ↔ other = path ∨ other ∈ paths := by
  refine ⟨eq_or_mem_of_mem_insert, ?_⟩
  rintro (rfl | h)
  · exact mem_insert_self _ _
  · induction paths with
    | nil => cases h
    | cons p paths ih =>
      rw [insert]
      split
      · exact List.mem_cons_of_mem _ h
      · split
        next heq =>
          rw [show path = p from heq]
          exact h
        next =>
          rcases List.mem_cons.1 h with rfl | h
          · exact List.mem_cons_self
          · exact List.mem_cons_of_mem _ (ih h)

theorem mem_foldl_insert {α : Type} (f : α → String) {other : String} (xs : List α)
    (paths : List String) :
    other ∈ xs.foldl (fun paths x => insert id (f x) paths) paths ↔
      (∃ x ∈ xs, f x = other) ∨ other ∈ paths := by
  induction xs generalizing paths with
  | nil => simp
  | cons x xs ih =>
    rw [List.foldl_cons, ih, mem_insert]
    simp only [List.mem_cons, exists_eq_or_imp, eq_comm (a := other)]
    rw [or_left_comm, or_assoc]

theorem mem_ofList {other : String} {paths : List String} :
    other ∈ ofList id paths ↔ other ∈ paths := by
  have h : _ ↔ (∃ path ∈ paths, path = other) ∨ other ∈ [] :=
    mem_foldl_insert (fun path => path) paths []
  simpa [ofList] using h

end Ascending

/-- The imports of a generated file, but for what it needs by itself. -/
theorem mem_imports {target : Target} {mentioned : Paths} {path : String} :
    path ∈ target.imports mentioned ↔ path ≠ target.destination.path ∧
      (path ∈ mentioned ∨ path = target.source.path) := by
  have hothers : path ∈ (Ascending.ofList id mentioned).filter (· ≠ target.destination.path) ↔
      path ∈ mentioned ∧ path ≠ target.destination.path := by
    rw [List.mem_filter, Ascending.mem_ofList, decide_eq_true_iff]
  rw [Target.imports]
  split
  next hsame =>
    have hpaths : target.source.path = target.destination.path := of_decide_eq_true hsame
    rw [hothers, hpaths]
    constructor
    · exact fun h => ⟨h.2, .inl h.1⟩
    · exact fun h => ⟨h.2.resolve_right h.1, h.1⟩
  next hother =>
    have hpaths : target.source.path ≠ target.destination.path := fun h =>
      hother (decide_eq_true h)
    rw [Ascending.mem_insert, hothers]
    constructor
    · rintro (rfl | h)
      · exact ⟨hpaths, .inr rfl⟩
      · exact ⟨h.2, .inl h.1⟩
    · rintro ⟨hne, h | h⟩
      · exact .inr ⟨h, hne⟩
      · exact .inl h

/-! ### Fresh names -/

/-- A fresh name is a name, whether or not a number is put behind the preferred one. -/
theorem writes_freshName {preferred : String} (hplain : isPlainName preferred.toList = true)
    (hkeywords : (Keyword.all.all fun k => !preferred.toList.isPrefixOf k.text.toList) = true)
    (taken : List String) : Kind.identifier.Writes (freshName preferred taken) := by
  have hpreferred : Kind.identifier.Writes preferred :=
    writes_of_plain hplain (ofText?_eq_none hkeywords (List.prefix_refl _))
  rw [freshName]
  split
  next =>
    dsimp only
    rcases hfound : List.find? (· ∉ taken)
      ((List.range (taken.length + 1)).map fun n => preferred ++ toString (n + 1)) with _ | name
    · exact hpreferred
    · obtain ⟨n, -, rfl⟩ := List.mem_map.1 (List.mem_of_find?_eq_some hfound)
      exact writes_numbered hplain hkeywords (n + 1)
  next => exact hpreferred

/-! ### Settled slots -/

/-- **What a plan settles** for a hooked method and a target. -/
structure HookFile.Settles (t : HookFile) (config : Config) (method : HookedMethod)
    (target : Target) : Prop where
  packageName : t.packageName = target.packageName
  imports : ∀ path, path ∈ t.imports ↔ path ≠ target.destination.path ∧
    ((∃ package name, Mentions package (method.params.map HookedParam.type) name ∧
      package.path = path) ∨ path = target.source.path)
  hookName : t.hookName = config.destination.hookName
  interfaceRef : t.interfaceRef = target.interfaceRef config.source.object
  methodName : t.methodName = method.name
  declarationArgs : t.declarationArgs.map String.toList = (forwarded 0 method.params).map
    (textOf ∘ HookedParam.pieces (shortIn target.destination.path))
  callArgs : t.callArgs = (forwarded 0 method.params).map HookedParam.passed
  threadSafe : t.threadSafe = config.threadSafe
  receiver : Kind.identifier.Writes t.receiver
  entry : Kind.identifier.Writes t.entry

/-- **A plan that succeeds settles every slot.** -/
theorem HookFile.settles_of_ofMethod {config : Config} {method : HookedMethod} {target : Target}
    {t : HookFile} (h : HookFile.ofMethod config method target = .ok t) :
    t.Settles config method target := by
  obtain ⟨forwarding, hdeclaration, hcall, hnames, packages, hnotes, hlists⟩ :=
    renders_forwardAll target.destination.path 0 method.params
  have hforwarding : (method.forwarding target.destination.path).run [] = _ := hnotes []
  rw [HookFile.ofMethod] at h
  split at h
  next => cases h
  split at h
  next => cases h
  rw [hforwarding] at h
  obtain rfl := Except.ok.inj h
  refine ⟨rfl, fun path => ?_, rfl, rfl, rfl, hdeclaration, hcall, rfl, ?_, ?_⟩
  · rw [mem_imports, Ascending.mem_foldl_insert]
    simp only [List.not_mem_nil, or_false, hlists _, ← exists_and_right]
  · exact writes_freshName (by decide) (by decide) _
  · exact writes_freshName (by decide) (by decide) _

end Multicast
