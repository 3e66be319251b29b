import Multicast.Hook.HookedMethod
import Multicast.Proofs.Closed

/-!
# The hooked method is well-formed

All types of a loaded package are well-formed, and what is found by following and embedding them is
too. So the parameters of the one method that a hook forwards are types that can be written down.
Their declared types belong to the package itself or to imports under guessed names.

## Well-formedness along a pipeline

A type is well-formed when it has been read. Settling moves own names to a dot import, and what is moved
stays well-formed, since its new package is an import. Following a name leads to a type that another
declaration of the package was read as. Embedding collects methods of such types. So at each step the same
is known, and `TypedBy` is the form in which it is passed on: which declared types there may be is a
parameter, and so the step of settling is the only one that looks at packages.
-/

namespace Multicast

open Source Syntax

/-! ### Types that a package knows -/

/-- The packages that the types of a package can belong to: itself, and others under the names that
their paths suggest. -/
def Package.Knows (pkg : Package) (package : PackageId) : Prop :=
  package = pkg.id ∨ package = .ofPath package.path ∧ package.path ≠ "" ∧
    importedPath package.path = package.path

/-- A method with a name and a signature of well-formed types. -/
structure Method.TypedBy (named : PackageId → String → Prop) (length : String → Prop) (m : Method) :
    Prop where
  name : Kind.identifier.Writes m.name
  proper : m.signature.Proper
  types : ∀ t ∈ m.signature.types, t.WellFormed named length

/-- All objects have names, and their types are well-formed. -/
structure Package.TypedBy (named : PackageId → String → Prop) (length : String → Prop)
    (pkg : Package) : Prop where
  names : ∀ object ∈ pkg.objects, Kind.identifier.Writes object.name
  types : ∀ object ∈ pkg.objects, ∀ t ∈ object.kind.types, t.WellFormed named length

/-- All objects have names, and their types belong to known packages. -/
abbrev Package.WellTyped (pkg : Package) : Prop :=
  pkg.TypedBy (fun package n => Kind.identifier.Writes n ∧ pkg.Knows package) fun _ => True

section

variable {named : PackageId → String → Prop} {length : String → Prop}

/-- The methods and the embedded types of a well-formed interface are well-formed. -/
theorem typedBy_interface {methods : List Method} {embeds : List GoType}
    (h : (GoType.interface ⟨methods, embeds⟩).WellFormed named length) :
    (∀ m ∈ methods, m.TypedBy named length) ∧ ∀ t ∈ embeds, t.WellFormed named length := by
  obtain ⟨hmethods, hparts⟩ := GoType.wellFormed_iff.1 h
  refine ⟨fun m hm => ⟨(hmethods m hm).1, (hmethods m hm).2, fun t ht => ?_⟩, fun t ht => ?_⟩
  · exact hparts t (List.mem_append_left _ (List.mem_flatMap.2 ⟨m, hm, ht⟩))
  · exact hparts t (List.mem_append_right _ ht)

end

/-- The packages that files import. -/
def Imported (files : List File) (package : PackageId) : Prop :=
  ∃ file ∈ files, ∃ i ∈ file.imports, i.package = package

/-- The declared types that the files of a package can name: those of the package itself and of
imported ones. -/
def NamedIn (own : PackageId) (files : List File) (package : PackageId) (n : String) : Prop :=
  Kind.identifier.Writes n ∧ (package = own ∨ Imported files package)

/-- **The types of a loaded package are well-formed**, and their declared types belong to the package
itself or to imported ones. -/
theorem Loads.typedBy {path name : String} {sources : List SourceText} {files : List File}
    (h : Loads path sources name files) :
    (linkFiles path name files).TypedBy (NamedIn ⟨path, name⟩ files) fun _ => True := by
  have hdeclared {object : Object} (hobject : object ∈ (linkFiles path name files).objects) :=
    (lookup?_linkFiles h.nodup).1 (Package.find?_objects.1 hobject)
  constructor
  · intro object hobject
    obtain ⟨file, hfile, d, hd, hname, -⟩ := hdeclared hobject
    exact hname ▸ (h.sound hfile).names d hd
  · intro object hobject t ht
    obtain ⟨file, hfile, d, hd, -, hsettled⟩ := hdeclared hobject
    have hwritten {s : GoType} (hs : s ∈ d.object.kind.types) :
        s.WellFormed (NamedIn ⟨path, name⟩ files) fun _ => True := by
      have hall := (h.sound hfile).types.wellFormed (by simp) s (List.mem_flatMap.2 ⟨d, hd, hs⟩)
      refine hall.imp (fun package n _ hadmits => ⟨hadmits.1, ?_⟩) fun _ _ _ _ => trivial
      rcases hadmits.2 with ⟨rfl, -⟩ | ⟨i, hi, -, rfl⟩
      · exact .inl (by rw [File.scope, h.package file hfile])
      · exact .inr ⟨file, hfile, i, hi, rfl⟩
    rw [hsettled, resolvedObject] at ht
    split at ht
    next dot s isAlias hdot hkind =>
      have hs := hwritten (s := s) (by rw [hkind]; exact List.mem_singleton.2 rfl)
      obtain ⟨i, hi, rfl⟩ : ∃ i ∈ file.imports, i.package = dot := by
        have hmem : dot ∈ dotImports file := hdot ▸ List.mem_singleton.2 rfl
        obtain ⟨i, hi, rfl⟩ := List.mem_map.1 hmem
        exact ⟨i, (List.mem_filter.1 hi).1, rfl⟩
      obtain rfl := List.mem_singleton.1 ht
      refine hs.relocate fun package n _ hknown => ⟨hknown.1, ?_⟩
      split
      · exact .inr ⟨file, hfile, i, hi, rfl⟩
      · exact hknown.2
    next => exact hwritten ht

/-- The types of a loaded package are known. -/
theorem Loads.wellTyped {path name : String} {sources : List SourceText} {files : List File}
    (h : Loads path sources name files) : (linkFiles path name files).WellTyped where
  names := h.typedBy.names
  types object hobject t ht := by
    refine (h.typedBy.types object hobject t ht).imp (fun package n _ hnamed => ⟨hnamed.1, ?_⟩)
      fun _ _ _ _ => trivial
    rcases hnamed.2 with rfl | ⟨file, hfile, i, hi, rfl⟩
    · exact .inl (id_linkFiles ..).symm
    · have hsound := (h.sound hfile).imports i hi
      exact .inr ⟨hsound.package, hsound.path, hsound.bare⟩

/-! ### Answers that are not errors

Following and embedding can fail. What is shown of their results is shown of those that are there, by
their own recursion. -/

section

variable {ε δ α β : Type}

theorem except_bind_eq_ok {x : Except ε α} {f : α → Except ε β} {b : β} :
    (x >>= f) = .ok b ↔ ∃ a, x = .ok a ∧ f a = .ok b := by
  cases x with
  | error e =>
    constructor
    · rintro ⟨⟩
    · rintro ⟨_, ⟨⟩, -⟩
  | ok a =>
    constructor
    · exact fun h => ⟨a, rfl, h⟩
    · rintro ⟨_, ⟨⟩, h⟩
      exact h

theorem mapError_eq_ok {x : Except ε α} {f : ε → δ} {a : α} :
    x.mapError f = .ok a ↔ x = .ok a := by
  cases x <;> simp [Except.mapError]

end

/-- The method of an object that is declared as an interface with this method alone. -/
def Object.loneMethod? (object : Object) : Option Method :=
  match object.kind with
  | .type (.interface ⟨[m], []⟩) _ => some m
  | _ => none

/-! ### Following and embedding -/

namespace Package

variable {pkg : Package} {named : PackageId → String → Prop} {length : String → Prop}

theorem wellFormed_errorInterface :
    (GoType.interface GoType.errorInterface).WellFormed named length := by
  refine GoType.wellFormed_iff.2 ⟨?_, ?_⟩
  · rintro m (_ | ⟨_, ⟨⟩⟩)
    refine ⟨by decide, .inl (by simp), .inl (by simp), by simp⟩
  · rintro t (_ | ⟨_, ⟨⟩⟩)
    exact GoType.wellFormed_basic.2 (by decide)

/-- What a well-formed type stands for is well-formed. -/
theorem TypedBy.underlying (hpkg : pkg.TypedBy named length) {seen : List String} {t u : GoType}
    (ht : t.WellFormed named length) (h : pkg.underlyingFrom seen t = .ok u) :
    u.WellFormed named length := by
  fun_induction pkg.underlyingFrom seen t with
  | case2 seen n _ other declared isAlias hlookup ih =>
    have hobject : ⟨other, .type declared isAlias⟩ ∈ pkg.objects :=
      List.mem_of_find?_eq_some hlookup
    exact ih (hpkg.types _ hobject declared (List.mem_singleton.2 rfl)) h
  | case1 | case3 | case4 | case5 => cases h
  | case6 =>
    cases h
    exact wellFormed_errorInterface
  | case7 =>
    cases h
    exact GoType.wellFormed_iff.2 ⟨by simp [GoType.Proper, GoType.anyInterface], by
      simp [GoType.components, GoType.anyInterface]⟩
  | case8 | case9 =>
    cases h
    exact ht

theorem typedBy_addMethods {found methods : List Method}
    (hfound : ∀ m ∈ found, m.TypedBy named length)
    (hmethods : ∀ m ∈ methods, m.TypedBy named length) :
    ∀ m ∈ addMethods found methods, m.TypedBy named length := by
  unfold addMethods
  induction methods generalizing found with
  | nil => exact hfound
  | cons method methods ih =>
    refine ih ?_ fun m hm => hmethods m (List.mem_cons_of_mem _ hm)
    dsimp only
    split
    · exact hfound
    · intro m hm
      rcases List.mem_append.1 hm with hm | hm
      · exact hfound m hm
      · exact hmethods m (List.mem_singleton.1 hm ▸ List.mem_cons_self)

/-- **Embedding well-formed types finds methods of well-formed types.** -/
theorem TypedBy.embedAll (hpkg : pkg.TypedBy named length) {path : List String}
    {found methods : List Method} {embeds : List GoType}
    (hfound : ∀ m ∈ found, m.TypedBy named length)
    (hembeds : ∀ t ∈ embeds, t.WellFormed named length)
    (h : pkg.embedAll path found embeds = .ok methods) : ∀ m ∈ methods, m.TypedBy named length := by
  have hothers {t : GoType} {ts : List GoType} (h : ∀ s ∈ t :: ts, s.WellFormed named length) :
      ∀ s ∈ ts, s.WellFormed named length := fun s hs => h s (List.mem_cons_of_mem _ hs)
  fun_induction pkg.embedAll path found embeds generalizing methods with
  | case1 path found =>
    cases h
    exact hfound
  | case3 path found own inner embeds first hinner ih ih' =>
    obtain ⟨hown, hembedded⟩ := typedBy_interface (hembeds _ List.mem_cons_self)
    exact ih' (ih (typedBy_addMethods hfound hown) hembedded hinner) (hothers hembeds) h
  | case7 path found n embeds _ own inner first hinner hunderlying ih ih' =>
    have hbody := hpkg.underlying (hembeds _ List.mem_cons_self) hunderlying
    obtain ⟨hown, hembedded⟩ := typedBy_interface hbody
    exact ih' (ih (typedBy_addMethods hfound hown) hembedded hinner) (hothers hembeds) h
  | case13 path found n embeds _ _ own inner hunderlying first hinner ih ih' =>
    have hbody := hpkg.underlying (hembeds _ List.mem_cons_self) hunderlying
    obtain ⟨hown, hembedded⟩ := typedBy_interface hbody
    exact ih' (ih (typedBy_addMethods hfound hown) hembedded hinner) (hothers hembeds) h
  | _ => cases h

/-- The only method of an interface of the package, as it is declared. -/
def OnlyMethod (pkg : Package) (interface : String) (m : Method) : Prop :=
  ∃ declared body, pkg.declaredType interface = .ok declared ∧
    pkg.underlying declared = .ok (.interface body) ∧ pkg.methodSet body = .ok [m]

theorem declaredType_eq_ok {name : String} {t : GoType} :
    pkg.declaredType name = .ok t ↔ ∃ isAlias, pkg.lookup? name = some ⟨name, .type t isAlias⟩ := by
  rw [declaredType]
  constructor
  · intro h
    split at h
    next => cases h
    next object hlookup =>
      have hname : object.name = name := by simpa using List.find?_some hlookup
      obtain ⟨n, kind⟩ := object
      subst hname
      cases kind with
      | type declared isAlias =>
        cases h
        exact ⟨isAlias, hlookup⟩
      | _ => cases h
  · rintro ⟨isAlias, hlookup⟩
    rw [hlookup]

theorem onlyMethod_eq_ok {name : String} {methods : List Method} {m : Method} :
    onlyMethod name methods = .ok m ↔ methods = [m] ∧ m.signature.results = [] := by
  cases methods with
  | nil => simp [onlyMethod]
  | cons n methods =>
    cases methods with
    | cons => simp [onlyMethod]
    | nil =>
      rw [onlyMethod]
      split
      next hnil =>
        constructor
        · rintro ⟨⟩
          exact ⟨rfl, List.isEmpty_iff.1 hnil⟩
        · rintro ⟨⟨⟩, -⟩
          rfl
      next hne =>
        constructor
        · rintro ⟨⟩
        · rintro ⟨⟨⟩, hnil⟩
          exact absurd (List.isEmpty_iff.2 hnil) hne

/-- **What is extracted** is the only method of an interface, if it has no results. -/
theorem extract_eq_ok {interface : String} {method : HookedMethod} :
    pkg.extract interface = .ok method ↔ interface ≠ "" ∧ ∃ m, pkg.OnlyMethod interface m ∧
      m.signature.results = [] ∧
        method = ⟨m.name, hookedParams m.signature.variadic m.signature.params⟩ := by
  rw [extract]
  constructor
  · intro h
    have hname : interface ≠ "" := by
      rintro rfl
      cases h
    rw [if_neg (by simpa using hname)] at h
    obtain ⟨declared, hdeclared, h⟩ := except_bind_eq_ok.1 h
    obtain ⟨type, htype, h⟩ := except_bind_eq_ok.1 h
    cases type with
    | interface body =>
      obtain ⟨methods, hmethods, h⟩ := except_bind_eq_ok.1 h
      obtain ⟨m, hm, hvalue⟩ := except_bind_eq_ok.1 h
      obtain ⟨rfl, hresults⟩ := onlyMethod_eq_ok.1 hm
      exact ⟨hname, m, ⟨declared, body, hdeclared, mapError_eq_ok.1 htype,
        mapError_eq_ok.1 hmethods⟩, hresults, (Except.ok.inj hvalue).symm⟩
    | _ => cases h
  · rintro ⟨hname, m, ⟨declared, body, hdeclared, hbody, hmethods⟩, hresults, rfl⟩
    rw [if_neg (by simpa using hname)]
    refine except_bind_eq_ok.2 ⟨declared, hdeclared, except_bind_eq_ok.2 ⟨_, mapError_eq_ok.2 hbody, ?_⟩⟩
    refine except_bind_eq_ok.2 ⟨_, mapError_eq_ok.2 hmethods, except_bind_eq_ok.2 ⟨m, ?_, rfl⟩⟩
    exact onlyMethod_eq_ok.2 ⟨rfl, hresults⟩

/-- An interface that is declared with one method alone. -/
theorem onlyMethod_of_loneMethod? {interface : String} {m : Method}
    (h : (pkg.lookup? interface).bind Object.loneMethod? = some m) :
    pkg.OnlyMethod interface m := by
  obtain ⟨⟨name, kind⟩, hlookup, hlone⟩ := Option.bind_eq_some_iff.1 h
  obtain rfl : name = interface := by simpa using List.find?_some hlookup
  rw [Object.loneMethod?] at hlone
  split at hlone
  next own isAlias hkind =>
    obtain rfl := Option.some.inj hlone
    obtain rfl : kind = .type (.interface ⟨[own], []⟩) isAlias := hkind
    refine ⟨_, ⟨[own], []⟩, declaredType_eq_ok.2 ⟨isAlias, hlookup⟩, ?_, ?_⟩
    · rw [underlying, underlyingFrom]
      all_goals simp
    · rw [methodSet, embedAll]
      rfl
  next => cases hlone

/-- The only method of an interface has well-formed types if the package has. -/
theorem TypedBy.onlyMethod (hpkg : pkg.TypedBy named length) {interface : String} {m : Method}
    (h : pkg.OnlyMethod interface m) : m.TypedBy named length := by
  obtain ⟨declared, ⟨methods, embeds⟩, hdeclared, hbody, hmethods⟩ := h
  obtain ⟨isAlias, hlookup⟩ := declaredType_eq_ok.1 hdeclared
  have hobject : ⟨interface, .type declared isAlias⟩ ∈ pkg.objects :=
    List.mem_of_find?_eq_some hlookup
  have htype := hpkg.types _ hobject declared (List.mem_singleton.2 rfl)
  obtain ⟨hown, hembedded⟩ := typedBy_interface (hpkg.underlying htype hbody)
  exact hpkg.embedAll (typedBy_addMethods (by simp) hown) hembedded hmethods m
    (List.mem_singleton.2 rfl)

end Package

end Multicast
