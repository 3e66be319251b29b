import Multicast.Proofs.Passing
import Multicast.Proofs.Qualifiers
import Multicast.Proofs.Stencils

/-!
# What a generated file imports

The imports of a generated file are noted while the types of its parameters are written. So they are
just what the declared types in the parameters need, at any depth, and the interface, but for the
package that the file is in; and they come in ascending order, each once.

What is written for a declared type depends on its package and nothing else. This can be said of a
text only if it is known where the declared types are in it. So a written type is a line with places
for declared types (`Stencil`), the same line whatever is put in front of their names, and the
places in it are for the declared types that occur in the type (`GoType.withPlaces`).

## Exactness in both directions

That every mentioned package is imported follows from the notes: the renderer asks for a qualifier at
every declared type, and it is told of no other package. That no other package is imported holds for the
same reason, but for the package of the interface, which the plan adds by itself. So the imports are a set
of paths with a condition, and the condition is an equivalence.

The second half is about the text. To say what stands in front of a declared type in it, it has to be said
where a declared type stands; a text search would find names that only look like one. The places of a
stencil say this, since they are there before anything is put in them.
-/

namespace Multicast

open Source Syntax

/-! ### Ascending paths

Paths are inserted in order and once, and so is the path of the mutex in the imports of the file. -/

/-- The imports of a target are in order, and none is there twice. -/
theorem Target.sorted_imports (target : Target) (mentioned : Paths) :
    Ascending.Sorted id (target.imports mentioned) := by
  have hothers : Ascending.Sorted id
      ((Ascending.ofList id mentioned).filter (· ≠ target.destination.path)) :=
    List.Pairwise.filter _ (Ascending.sorted_ofList mentioned)
  rw [Target.imports]
  split
  · exact hothers
  · exact Ascending.sorted_insert _ hothers

/-- The package of the locks keeps its place in the order. -/
theorem HookFile.sorted_fileImports (t : HookFile) : Ascending.Sorted id t.fileImports := by
  have himports : Ascending.Sorted id (Ascending.ofList id t.imports) :=
    Ascending.sorted_ofList t.imports
  rw [fileImports]
  split
  · exact Ascending.sorted_insert _ himports
  · exact himports

/-! ### Written types with places for declared types

There is one lemma for each way in which texts of types are put together, and each of them adds the places
of the parts in order. The cases of the theorem are then one line each. -/

/-- A declared type as it is written, behind what `qualifier` puts in front of the types of its
package. -/
def qualifiedBy (qualifier : PackageId → String) (declared : PackageId × String) : String :=
  qualify (qualifier declared.1) declared.2

/-- **A text with places for declared types.** Whatever stands in front of the names of declared
types, it is one line with declared types at its places, and the places are for those that the types
mention. -/
def WithPlaces (pieces : (PackageId → String) → List Piece) (types : List GoType) : Prop :=
  ∃ stencil : Stencil (PackageId × String),
    (∀ qualifier, (stencil.fill (qualifiedBy qualifier)).toList = textOf (pieces qualifier)) ∧
    ∀ package n, .name (package, n) ∈ stencil ↔ Mentions package types n

namespace WithPlaces

variable {ps qs : (PackageId → String) → List Piece} {types more : List GoType}

/-- Pieces without a declared type, whatever the qualifier. -/
theorem fixed (ps : List Piece) : WithPlaces (fun _ => ps) [] :=
  ⟨[.text (String.ofList (textOf ps))], by simp [Stencil.fill, Segment.fill], by simp [Mentions]⟩

/-- A declared type has one place for a qualifier. -/
theorem named (package : PackageId) (n : String) :
    WithPlaces (fun qualifier => qualifiedPieces (qualifier package) n) [.named package n] := by
  refine ⟨[.name (package, n)], fun qualifier => ?_, fun other m => ?_⟩
  · simp [Stencil.fill, Segment.fill, qualifiedBy, toList_qualify]
  · rw [mentions_named]
    simp [eq_comm]

/-- The places in pieces that stand in a row come one after the other. -/
theorem append (h : WithPlaces ps types) (h' : WithPlaces qs more) :
    WithPlaces (fun qualifier => ps qualifier ++ qs qualifier) (types ++ more) := by
  obtain ⟨stencil, htext, hplaces⟩ := h
  obtain ⟨stencil', htext', hplaces'⟩ := h'
  refine ⟨stencil ++ stencil', fun qualifier => ?_, fun package n => ?_⟩
  · rw [textOf_append, ← htext, ← htext']
    simp [Stencil.fill]
  · rw [List.mem_append, hplaces, hplaces', mentions_append]

/-- What stands in front of a text has no places. -/
theorem behind (h : WithPlaces ps types) (before : List Piece) :
    WithPlaces (fun qualifier => before ++ ps qualifier) types :=
  (fixed before).append h

/-- Pieces around others have no places of their own. -/
theorem enclosed (h : WithPlaces ps types) (before after : List Piece) :
    WithPlaces (fun qualifier => before ++ ps qualifier ++ after) types := by
  have hplaces := (h.behind before).append (fixed after)
  rwa [List.append_nil] at hplaces

/-- A type mentions what its components mention, unless it is a declared one. -/
theorem node {t : GoType} (h : WithPlaces ps t.components)
    (hnamed : ∀ package name, t ≠ .named package name) : WithPlaces ps [t] := by
  obtain ⟨stencil, htext, hplaces⟩ := h
  refine ⟨stencil, htext, fun package n => ?_⟩
  have hself : GoType.named package n ≠ t := fun h => hnamed _ _ h.symm
  rw [hplaces]
  simp [Mentions, GoType.has_iff (t := t), hself]

end WithPlaces

/-- Texts with places for declared types, one by one. -/
inductive AllWithPlaces : ((PackageId → String) → List (List Piece)) → List GoType → Prop
  | nil : AllWithPlaces (fun _ => []) []
  | cons {ps : (PackageId → String) → List Piece} {pss : (PackageId → String) → List (List Piece)}
    {types more : List GoType} (h : WithPlaces ps types) (hs : AllWithPlaces pss more) :
    AllWithPlaces (fun qualifier => ps qualifier :: pss qualifier) (types ++ more)

namespace AllWithPlaces

variable {pss qss : (PackageId → String) → List (List Piece)} {types more : List GoType}

/-- Several things are written one after the other, and so are their places. -/
theorem map {α : Type} {write : (PackageId → String) → α → List Piece} {types : α → List GoType}
    {xs : List α} (h : ∀ x ∈ xs, WithPlaces (fun qualifier => write qualifier x) (types x)) :
    AllWithPlaces (fun qualifier => xs.map (write qualifier)) (xs.flatMap types) := by
  induction xs with
  | nil => exact .nil
  | cons x xs ih =>
    obtain ⟨hx, hxs⟩ := List.forall_mem_cons.1 h
    exact .cons hx (ih hxs)

theorem append (h : AllWithPlaces pss types) (h' : AllWithPlaces qss more) :
    AllWithPlaces (fun qualifier => pss qualifier ++ qss qualifier) (types ++ more) := by
  induction h with
  | nil => exact h'
  | cons h _ ih =>
    rw [List.append_assoc]
    exact .cons h ih

/-- A separator has no places. -/
theorem joined (h : AllWithPlaces pss types) (separator : List Piece) :
    WithPlaces (fun qualifier => joined separator (pss qualifier)) types := by
  induction h with
  | nil => exact .fixed []
  | @cons ps pss types more h hs ih =>
    cases hs with
    | nil => simpa [Multicast.joined] using h
    | cons h' hs =>
      have hplaces := h.append (ih.behind separator)
      simpa [Multicast.joined, List.intercalate_cons_cons] using hplaces

theorem list (h : AllWithPlaces pss types) :
    WithPlaces (fun qualifier => listPieces (pss qualifier)) types :=
  (h.joined [.comma, .space]).enclosed [.leftParen] [.rightParen]

theorem body (h : AllWithPlaces pss types) :
    WithPlaces (fun qualifier => bodyPieces (pss qualifier)) types :=
  (h.joined [.semicolon, .space]).enclosed [.leftBrace] [.rightBrace]

end AllWithPlaces

namespace WithPlaces

variable {ps : (PackageId → String) → List Piece} {types : List GoType}

theorem param (h : WithPlaces ps types) (name : String) :
    WithPlaces (fun qualifier => paramPieces name (ps qualifier)) types := by
  unfold paramPieces
  split
  · exact h
  · exact h.behind [.name name, .space]

theorem chan (h : WithPlaces ps types) (direction : Direction) (nested : Bool) :
    WithPlaces (fun qualifier => chanPieces direction nested (ps qualifier)) types := by
  cases direction with
  | both =>
    cases nested with
    | false => exact h.behind [.key .chanKw, .space]
    | true => exact h.enclosed [.key .chanKw, .space, .leftParen] [.rightParen]
  | send => exact h.behind [.key .chanKw, .arrow, .space]
  | receive => exact h.behind [.arrow, .key .chanKw, .space]

end WithPlaces

/-- A parameter of a hooked method is a text with places if its type is. -/
theorem HookedParam.withPlaces {p : HookedParam}
    (h : ∀ s, p.type.Has s → WithPlaces (fun qualifier => s.pieces qualifier) [s]) :
    WithPlaces (fun qualifier => p.pieces qualifier) [p.type] := by
  obtain ⟨name, type, tail⟩ := p
  have hplain := (h type (.self type)).param name
  cases tail with
  | false => cases type <;> exact hplain
  | true =>
    cases type with
    | slice elem =>
      have helem : (GoType.slice elem).Has elem := .inside (List.mem_singleton_self _) (.self elem)
      have hslice : WithPlaces (fun qualifier => .dots :: elem.pieces qualifier) [.slice elem] :=
        ((h elem helem).behind [.dots]).node (by simp)
      exact hslice.param name
    | _ => exact hplain

/-- The places in results, written alone or in parentheses. -/
theorem withPlaces_results {results : List Param}
    (h : ∀ p ∈ results, WithPlaces (fun qualifier => p.type.pieces qualifier) [p.type]) :
    WithPlaces (fun qualifier => resultPieces results
      (results.map fun p => paramPieces p.name (p.type.pieces qualifier)))
      (results.map Param.type) := by
  have hlist : WithPlaces (fun qualifier => .space :: listPieces
      (results.map fun p => paramPieces p.name (p.type.pieces qualifier)))
      (results.map Param.type) := by
    rw [List.map_eq_flatMap]
    exact (AllWithPlaces.map fun p hp => (h p hp).param p.name).list.behind [.space]
  rcases results with _ | ⟨⟨name, type⟩, _ | ⟨other, results⟩⟩
  · exact .fixed []
  · by_cases hname : name = ""
    · subst hname
      exact (h _ (List.mem_singleton_self _)).behind [.space]
    · simpa [resultPieces, hname] using hlist
  · simpa [resultPieces] using hlist

/-- The parameters and results of a signature are written one by one. -/
theorem Signature.withPlaces {signature : Signature}
    (h : ∀ c ∈ signature.types, ∀ s, c.Has s →
      WithPlaces (fun qualifier => s.pieces qualifier) [s]) :
    WithPlaces (fun qualifier => signature.pieces qualifier) signature.types := by
  have hparams : AllWithPlaces (fun qualifier =>
      (hookedParams signature.variadic signature.params).map (HookedParam.pieces qualifier))
      (signature.params.map Param.type) := by
    rw [← type_hookedParams signature.variadic, List.map_eq_flatMap]
    refine AllWithPlaces.map fun p hp => HookedParam.withPlaces (h p.type ?_)
    exact Signature.mem_types.2 (.inl ⟨_, (mem_of_hookedParams hp).1, rfl⟩)
  have hresults := withPlaces_results fun p (hp : p ∈ signature.results) =>
    h p.type (Signature.mem_types.2 (.inr ⟨p, hp, rfl⟩)) _ (.self _)
  have hplaces := hparams.list.append hresults
  rw [← List.map_append] at hplaces
  simp only [Signature.pieces_eq]
  exact hplaces

/-- **A written type has places for the declared types that occur in it.** -/
theorem GoType.withPlaces (t : GoType) : WithPlaces (fun qualifier => t.pieces qualifier) [t] := by
  -- from all parts and not the components alone: a variadic tail shows the elements of its slice
  induction t using GoType.partInduction with
  | h t ih =>
    have hself {c : GoType} (hc : c ∈ t.components) :
        WithPlaces (fun qualifier => c.pieces qualifier) [c] := ih c hc c (.self c)
    cases t with
    | basic name => exact (WithPlaces.fixed [.name name]).node (by simp)
    | named package name => exact .named package name
    | pointer elem => exact ((hself (List.mem_singleton_self _)).behind [.star]).node (by simp)
    | slice elem =>
      exact ((hself (List.mem_singleton_self _)).behind
        [.leftBracket, .rightBracket]).node (by simp)
    | array length elem =>
      exact ((hself (List.mem_singleton_self _)).behind [.leftBracket,
        .lexeme (kindOf length) length.toList, .rightBracket]).node (by simp)
    | map key value =>
      have hkey := (hself (c := key) (by simp [components])).behind [.key .mapKw, .leftBracket]
      have hvalue := (hself (c := value) (by simp [components])).behind [.rightBracket]
      exact (hkey.append hvalue).node (by simp)
    | chan direction elem =>
      exact ((hself (List.mem_singleton_self _)).chan direction elem.isReceiver).node (by simp)
    | func signature => exact ((Signature.withPlaces ih).behind [.key .funcKw]).node (by simp)
    | interface body =>
      obtain ⟨methods, embeds⟩ := body
      have hmethods : AllWithPlaces (fun qualifier => Method.piecesAll qualifier methods)
          (methods.flatMap (·.signature.types)) := by
        simp only [Method.piecesAll_eq]
        refine AllWithPlaces.map fun m hm => WithPlaces.behind ?_ [.name m.name]
        exact Signature.withPlaces fun c hc =>
          ih c (List.mem_append_left _ (List.mem_flatMap.2 ⟨m, hm, hc⟩))
      have hembeds : AllWithPlaces (fun qualifier => GoType.piecesAll qualifier embeds) embeds := by
        have hall := AllWithPlaces.map fun c hc => hself (c := c) (List.mem_append_right _ hc)
        simpa [GoType.piecesAll_eq] using hall
      exact ((hmethods.append hembeds).body.behind [.key .interfaceKw]).node (by simp)
    | struct fields =>
      have hfields : AllWithPlaces (fun qualifier => Field.piecesAll qualifier fields)
          (fields.map Field.type) := by
        simp only [Field.piecesAll_eq]
        rw [List.map_eq_flatMap]
        refine AllWithPlaces.map fun f hf => ?_
        exact (hself (List.mem_map_of_mem hf)).enclosed _ _
      exact (hfields.body.behind [.key .structKw]).node (by simp)

/-! ### The imports and the arguments of a plan -/

/-- An argument as it is declared in the package at `destination` is a line with places for the
declared types in it, which stand there behind the short names of their packages. -/
theorem HookedParam.exists_stencil_declaredIn (destination : String) {p : HookedParam}
    (hname : p.name ≠ "") : ∃ stencil : Stencil (PackageId × String),
      (∀ package n, .name (package, n) ∈ stencil ↔ p.type.Has (.named package n)) ∧
      (∀ qualifier, (stencil.fill (qualifiedBy qualifier)).toList = textOf (p.pieces qualifier)) ∧
      p.declaredIn destination = stencil.fill fun declared =>
        if declared.1.path = destination ∨ declared.1.name = "" then declared.2
        else declared.1.name ++ "." ++ declared.2 := by
  obtain ⟨stencil, htext, hplaces⟩ :=
    HookedParam.withPlaces fun s (_ : p.type.Has s) => s.withPlaces
  refine ⟨stencil, fun package n => ?_, htext, ?_⟩
  · rw [hplaces]
    simp [Mentions]
  · have hqualified : qualifiedBy (shortIn destination) = fun declared =>
        if declared.1.path = destination ∨ declared.1.name = "" then declared.2
        else declared.1.name ++ "." ++ declared.2 := by
      funext declared
      obtain ⟨package, n⟩ := declared
      by_cases hpath : package.path = destination <;> by_cases hshort : package.name = "" <;>
        simp [qualifiedBy, shortIn, qualify, hpath, hshort]
    rw [← hqualified, ← String.toList_inj, p.toList_declaredIn destination hname, htext]

/-- The packages that parameters mention are those of the declared types in their types. -/
theorem exists_mentions_params {ps : List HookedParam} {path : String} :
    (∃ package n, Mentions package (ps.map HookedParam.type) n ∧ package.path = path) ↔
      ∃ p ∈ ps, ∃ package n, p.type.Has (.named package n) ∧ package.path = path := by
  constructor
  · rintro ⟨package, n, ⟨type, htype, hhas⟩, hpath⟩
    obtain ⟨p, hp, rfl⟩ := List.mem_map.1 htype
    exact ⟨p, hp, package, n, hhas, hpath⟩
  · rintro ⟨p, hp, package, n, hhas, hpath⟩
    exact ⟨package, n, ⟨p.type, List.mem_map_of_mem hp, hhas⟩, hpath⟩

/-- **The imports are exact**, and declared types are written behind the short names of their
packages. -/
theorem HookFile.imports_of_ofMethod {config : Config} {method : HookedMethod} {target : Target}
    {t : HookFile} (h : HookFile.ofMethod config method target = .ok t) :
    t.imports.Pairwise (· < ·) ∧
      (∀ path, path ∈ t.imports ↔ path ≠ target.destination.path ∧
        ((∃ p ∈ method.params, ∃ package n, p.type.Has (.named package n) ∧ package.path = path) ∨
          path = target.source.path)) ∧
      List.Forall₂ (fun p declared => ∃ stencil : Stencil (PackageId × String),
          (∀ package n, .name (package, n) ∈ stencil ↔ p.type.Has (.named package n)) ∧
          (∀ qualifier, (stencil.fill (qualifiedBy qualifier)).toList =
            textOf (p.pieces qualifier)) ∧
          declared = stencil.fill fun declared =>
            if declared.1.path = target.destination.path ∨ declared.1.name = "" then declared.2
            else declared.1.name ++ "." ++ declared.2)
        (forwarded 0 method.params) t.declarationArgs ∧
      t.fileImports.Pairwise (· < ·) ∧
      ∀ path, path ∈ t.fileImports ↔
        path ∈ t.imports ∨ config.threadSafe = true ∧ path = HookFile.syncPackage := by
  obtain ⟨mentioned, ht⟩ := HookFile.ofMethod_eq_ok h
  have hsettles := HookFile.settles_of_ofMethod h
  refine ⟨?_, fun path => ?_, ?_, t.sorted_fileImports, fun path => ?_⟩
  · rw [ht]
    exact target.sorted_imports mentioned
  · rw [hsettles.imports, exists_mentions_params]
  · rw [ht, List.forall₂_map_right_iff, List.forall₂_same]
    exact fun p hp => p.exists_stencil_declaredIn _ (name_ne_empty_of_mem_forwarded hp)
  · rw [mem_fileImports, hsettles.threadSafe]

/-- A method with types of three packages: one behind a pointer in a map, one in the result of a
function, and one in a variadic tail. -/
def mergeMethod : HookedMethod where
  name := "Merge"
  params := [
    ⟨"rows", .map (.basic "string") (.pointer (.named ⟨"m/wire", "wire"⟩ "Row")), false⟩,
    ⟨"", .func ⟨[], [⟨"", .named ⟨"m/post", "post"⟩ "Mark"⟩], false⟩, false⟩,
    ⟨"rest", .slice (.chan .both (.named ⟨"m/box", "box"⟩ "Item")), true⟩]

/-- A hook with locks, for a method that mentions the packages of the destination and of the interface, and
a third one. -/
theorem HookFile.imports_mergeMethod : ∃ t : HookFile,
    HookFile.ofMethod { postConfig ⟨"./box", "Box"⟩ with threadSafe := true } mergeMethod
      ⟨⟨"m/box", "box"⟩, ⟨"m/post", "post"⟩⟩ = .ok t ∧
    t.declarationArgs =
      ["rows map[string]*wire.Row", "arg1 func() Mark", "rest ...chan box.Item"] ∧
    t.imports = ["m/box", "m/wire"] ∧ t.fileImports = ["m/box", "m/wire", "sync"] ∧
    t.imports.Pairwise (· < ·) ∧
    ∀ path, path ∈ t.imports ↔ path ≠ "m/post" ∧
      ((∃ p ∈ mergeMethod.params, ∃ package n,
        p.type.Has (.named package n) ∧ package.path = path) ∨ path = "m/box") := by
  obtain ⟨t, ht, hcheck⟩ : ∃ t : HookFile,
      HookFile.ofMethod { postConfig ⟨"./box", "Box"⟩ with threadSafe := true } mergeMethod
        ⟨⟨"m/box", "box"⟩, ⟨"m/post", "post"⟩⟩ = .ok t ∧ (t.declarationArgs =
        ["rows map[string]*wire.Row", "arg1 func() Mark", "rest ...chan box.Item"] ∧
      t.imports = ["m/box", "m/wire"] ∧ t.fileImports = ["m/box", "m/wire", "sync"]) :=
    ⟨_, rfl, by decide +kernel⟩
  have hexact := HookFile.imports_of_ofMethod ht
  exact ⟨t, ht, hcheck.1, hcheck.2.1, hcheck.2.2, hexact.1, hexact.2.1⟩

end Multicast
