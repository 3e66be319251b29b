import Multicast.Proofs.ForwardedBack

/-!
# What can be hooked

Extraction is a chain of checks, and the first one that fails gives the error. `pkg.Refuses name e`
lists the errors, each with all that was found out before: which object has the name, which type it
is declared as, what that type stands for, which methods there are. What no check refuses is an
interface with one method that has no results, and the hooked method is a copy of this method
(`Package.extract_accepts_and_refuses`).

Three dots need a word of their own. A list of parameters is variadic if its last entry is written
with three dots, and then its last parameter is a slice. Linking, following and embedding keep that,
so the type of the last parameter never stands in the way of the mark.

## Order of the checks

Each way of failing has what was found out before among its premises, so no name is refused in two ways
(`Refuses`). What is left when no way of failing applies is exactly one method without results, and this
gives the equivalence for success: extraction either refuses or returns a copy, and it does not do both.
-/

namespace Multicast

open Source Syntax

/-! ### Three dots

The mark is set by the reader of parameter lists, from the last entry. The signature keeps it, but nothing
in the type of a signature forces the last parameter to be a slice; that it is one is known of signatures
that were read, and it is kept by everything that is done to them later. -/

namespace Syntax

variable {scope : Scope} {allowDots : Bool} {tokens : List Token}

/-- Three dots at an entry are told of the whole list, if they stand at its end. -/
theorem dots_cons {e : Entry} {entries : List Entry} {variadic : Bool}
    (he : e.hasDots = true → entries = [])
    (h : variadic = entries.getLast?.any Entry.hasDots ∧
      ∀ e ∈ entries.dropLast, e.hasDots = false) :
    (e.hasDots || variadic) = (e :: entries).getLast?.any Entry.hasDots ∧
      ∀ e' ∈ (e :: entries).dropLast, e'.hasDots = false := by
  cases entries with
  | nil => simp [h.1]
  | cons e' entries =>
    have hnone : e.hasDots = false := Bool.eq_false_iff.2 fun h => List.cons_ne_nil _ _ (he h)
    refine ⟨by rw [hnone, Bool.false_or, List.getLast?_cons_cons, h.1], ?_⟩
    rw [List.dropLast_cons_of_ne_nil (List.cons_ne_nil _ _), List.forall_mem_cons]
    exact ⟨hnone, h.2⟩

/-- **A list is variadic if its last entry has three dots**, and no other entry has. -/
theorem variadic_resolve {named : Bool} {entries : List Entry} {waiting : List String}
    {list : Parsed ParameterList}
    (h : resolve scope allowDots named entries waiting tokens = .ok list) :
    list.value.variadic = entries.getLast?.any Entry.hasDots ∧
      ∀ e ∈ entries.dropLast, e.hasDots = false := by
  induction entries generalizing waiting tokens list with
  | nil =>
    cases waiting with
    | nil =>
      obtain rfl := Except.ok.inj h
      simp
    | cons => cases h
  | cons e entries ih =>
    -- three dots are read before the last entry only
    have hlast {dots : Bool}
        (hdots : ¬(dots && !(allowDots && entries.isEmpty && waiting.isEmpty)) = true) :
        dots = true → entries = [] := by
      rintro rfl
      simp at hdots
      exact hdots.1.2
    cases e with
    | lone name pos =>
      rw [resolve] at h
      split at h
      next => exact dots_cons (e := .lone name pos) (by simp [Entry.hasDots]) (ih h)
      next =>
        obtain ⟨_, _, -, hbehind, rfl⟩ := Parser.bind_eq_ok.1 h
        obtain ⟨list, hlist, rfl⟩ := Parser.bind_pure_eq_ok.1 hbehind
        have hdots := ih hlist
        exact dots_cons (e := .lone name pos) (by simp [Entry.hasDots]) hdots
    | named name dots type pos =>
      rw [resolve] at h
      split at h
      next => cases h
      next hdots =>
        obtain ⟨list, hlist, rfl⟩ := Parser.bind_pure_eq_ok.1 h
        exact dots_cons (e := .named name dots type pos) (hlast hdots) (ih hlist)
    | unnamed dots type pos =>
      rw [resolve] at h
      split at h
      next => cases h
      next hdots =>
        split at h
        next => cases h
        next =>
          obtain ⟨list, hlist, rfl⟩ := Parser.bind_pure_eq_ok.1 h
          exact dots_cons (e := .unnamed dots type pos) (hlast hdots) (ih hlist)

/-- A signature of these tokens is written with three dots before the type of its last parameter. -/
def WrittenWithDots (type : Parser GoType) (tokens : List Token) : Prop :=
  ∃ entries, Parser.bounded (Entry.parseAll type) tokens.tail = .ok entries ∧
    ∃ e ∈ entries.value.getLast?, e.hasDots = true

theorem variadic_parameters {type : Parser GoType} {list : Parsed ParameterList}
    (h : parameters scope type allowDots tokens = .ok list) :
    list.value.variadic = true ↔ WrittenWithDots type tokens := by
  obtain ⟨paren, _, hparen, hbehind, rfl⟩ := Parser.bind_eq_ok.1 h
  obtain ⟨entries, list, hentries, hlist, rfl⟩ := Parser.bind_eq_ok.1 hbehind
  have hrest : paren.rest = tokens.tail := by
    cases tokens with
    | nil => cases hparen
    | cons t rest =>
      simp only [Parser.expect] at hparen
      split at hparen
      next => rw [← Except.ok.inj hparen, List.tail_cons]
      next => cases hparen
  rw [hrest] at hentries
  rw [(variadic_resolve hlist).1, Option.any_eq_true]
  constructor
  · rintro ⟨e, he, hdots⟩
    exact ⟨entries, hentries, e, he, hdots⟩
  · rintro ⟨others, hothers, e, he, hdots⟩
    rw [hentries] at hothers
    obtain rfl := Except.ok.inj hothers
    exact ⟨e, he, hdots⟩

/-- **What is read as a variadic signature** is what is written with three dots. -/
theorem variadic_signature {type : Parser GoType} {parsed : Parsed Signature}
    (h : signature scope type tokens = .ok parsed) :
    parsed.value.variadic = true ↔ WrittenWithDots type tokens := by
  obtain ⟨list, _, hlist, hbehind, rfl⟩ := Parser.bind_eq_ok.1 h
  rw [← variadic_parameters hlist]
  obtain ⟨_, _, -, hnext, rfl⟩ := Parser.bind_eq_ok.1 hbehind
  obtain ⟨_, _, -, hresults, rfl⟩ := Parser.bind_eq_ok.1 hnext
  -- whatever the results are, they have no say in it
  split at hresults
  next =>
    obtain ⟨_, _, -, hvalue, rfl⟩ := Parser.bind_eq_ok.1 hresults
    cases hvalue
    rfl
  next =>
    split at hresults
    next =>
      obtain ⟨_, _, -, hvalue, rfl⟩ := Parser.bind_eq_ok.1 hresults
      cases hvalue
      rfl
    next =>
      cases hresults
      rfl

end Syntax

/-! ### Copies -/

/-- A hooked method that is a copy of a method: the name and the parameters are the same, and the tail
of a variadic method, which is its last parameter and a slice, is marked. -/
structure HookedMethod.Copies (method : HookedMethod) (m : Method) : Prop where
  name : method.name = m.name
  params : method.params.map (fun p => (⟨p.name, p.type⟩ : Param)) = m.signature.params
  tail : ∀ (i : Nat) (h : i < method.params.length), method.params[i].variadicTail = true ↔
    m.signature.variadic = true ∧ i + 1 = method.params.length
  slice : m.signature.variadic = true → ∃ p ∈ method.params.getLast?, p.type.isSlice

theorem map_hookedParams (variadic : Bool) (params : List Param) :
    (hookedParams variadic params).map (fun p => (⟨p.name, p.type⟩ : Param)) = params := by
  rw [map_hookedParams_eq (g := id) (fun p _ => by cases p; rfl) variadic params, List.map_id]

/-- A parameter is marked if it is the last one of a variadic list, and a slice. -/
theorem variadicTail_hookedParams {variadic : Bool} {params : List Param} {i : Nat}
    (h : i < (hookedParams variadic params).length) :
    (hookedParams variadic params)[i].variadicTail = true ↔ variadic = true ∧
      i + 1 = (hookedParams variadic params).length ∧
        ∃ p ∈ params.getLast?, p.type.isSlice := by
  induction params generalizing i with
  | nil => cases h
  | cons p params ih =>
    cases params with
    | nil =>
      simp only [hookedParams_singleton] at h ⊢
      obtain rfl : i = 0 := by simpa using h
      simp
    | cons q params =>
      simp only [hookedParams_cons] at h ⊢
      cases i with
      | zero =>
        have hlength := congrArg List.length (map_hookedParams variadic (q :: params))
        simp at hlength
        simp [hlength]
      | succ i =>
        simp only [List.getElem_cons_succ, List.length_cons, Nat.add_right_cancel_iff,
          List.getLast?_cons_cons]
        exact ih (by simpa using h)

section

variable {m : Method} {method other : HookedMethod}

/-- The parameters of a proper signature are copied: the last one of a variadic list is marked, since
it is a slice. -/
theorem Signature.Proper.copies (h : m.signature.Proper) :
    HookedMethod.Copies ⟨m.name, hookedParams m.signature.variadic m.signature.params⟩ m where
  name := rfl
  params := map_hookedParams ..
  tail i hi := by
    rw [variadicTail_hookedParams hi]
    constructor
    · rintro ⟨hvariadic, hlast, -⟩
      exact ⟨hvariadic, hlast⟩
    · rintro ⟨hvariadic, hlast⟩
      exact ⟨hvariadic, hlast, h.variadic hvariadic⟩
  slice hvariadic := by
    obtain ⟨p, hp, hslice⟩ := h.variadic hvariadic
    have hlast : (hookedParams m.signature.variadic m.signature.params).getLast?.map
        (fun p => (⟨p.name, p.type⟩ : Param)) = some p := by
      rw [← List.getLast?_map, map_hookedParams]
      exact hp
    obtain ⟨q, hq, rfl⟩ := Option.map_eq_some_iff.1 hlast
    exact ⟨q, hq, hslice⟩

/-- There is one copy of a method. -/
theorem HookedMethod.Copies.unique (h : method.Copies m) (h' : other.Copies m) :
    method = other := by
  obtain ⟨n, ps⟩ := method
  obtain ⟨n', qs⟩ := other
  have hparams : ps.map (fun p => (⟨p.name, p.type⟩ : Param)) = qs.map _ :=
    h.params.trans h'.params.symm
  have hlength : ps.length = qs.length := by simpa using congrArg List.length hparams
  have hlist : ps = qs := by
    refine List.ext_getElem hlength fun i hi hi' => ?_
    have hparam : ps[i].name = qs[i].name ∧ ps[i].type = qs[i].type := by
      have hget := congrArg (·[i]?) hparams
      simpa [hi, hi'] using hget
    have htail : ps[i].variadicTail = qs[i].variadicTail := by
      rw [Bool.eq_iff_iff, h.tail i hi, h'.tail i hi']
      dsimp only
      rw [hlength]
    exact HookedParam.mk.injEq .. ▸ ⟨hparam.1, hparam.2, htail⟩
  rw [hlist, show n = n' from h.name.trans h'.name.symm]

end

/-! ### Refusals

The texts of the errors hold the name that was asked for, and for an object of another kind the word for
that kind. What is told of a type that is no interface is its own text. -/

namespace Package

variable {pkg : Package} {name : String}

/-- The name is declared as a type. -/
def DeclaredAs (pkg : Package) (name : String) (declared : GoType) : Prop :=
  name ≠ "" ∧ ∃ isAlias, pkg.lookup? name = some ⟨name, .type declared isAlias⟩

/-- The name is declared as a type that stands for this one. -/
def StandsFor (pkg : Package) (name : String) (type : GoType) : Prop :=
  ∃ declared, pkg.DeclaredAs name declared ∧ pkg.underlying declared = .ok type

/-- The name is declared as an interface with these methods. -/
def HasMethods (pkg : Package) (name : String) (methods : List Method) : Prop :=
  ∃ body, pkg.StandsFor name (.interface body) ∧ pkg.methodSet body = .ok methods

/-- What is said of an object that is not a type. -/
def kindNames : List (ObjectKind × String) :=
  [(.func, "func"), (.var, "var"), (.const, "const")]

/-- **Why a name cannot be hooked**, with all that was found out before. -/
inductive Refuses (pkg : Package) (name : String) : ExtractError → Prop
  | emptyName : name = "" → Refuses pkg name .emptyName
  | notFound : name ≠ "" → pkg.lookup? name = none → Refuses pkg name (.notFound name)
  | unsupported {reason : String} : name ≠ "" →
    pkg.lookup? name = some ⟨name, .unsupported reason⟩ →
      Refuses pkg name (.unresolved (.unsupported name reason))
  | notAType {kind : ObjectKind} {shown : String} : name ≠ "" →
    pkg.lookup? name = some ⟨name, kind⟩ → (kind, shown) ∈ kindNames →
      Refuses pkg name (.notAnInterface name shown)
  | unresolved {declared : GoType} {e : ResolveError} : pkg.DeclaredAs name declared →
    pkg.underlying declared = .error e → Refuses pkg name (.unresolved e)
  | notAnInterface {type : GoType} : pkg.StandsFor name type →
    (∀ body, type ≠ .interface body) → Refuses pkg name (.notAnInterface name type.canonical)
  | noMethodSet {body : Interface} {e : ResolveError} : pkg.StandsFor name (.interface body) →
    pkg.methodSet body = .error e → Refuses pkg name (.unresolved e)
  | emptyInterface : pkg.HasMethods name [] → Refuses pkg name (.emptyInterface name)
  | tooManyMethods {methods : List Method} : pkg.HasMethods name methods → 2 ≤ methods.length →
    Refuses pkg name (.tooManyMethods name methods.length)
  | hasResults {m : Method} : pkg.HasMethods name [m] → m.signature.results ≠ [] →
    Refuses pkg name (.hasResults name m.name)

theorem DeclaredAs.declaredType {declared : GoType} (h : pkg.DeclaredAs name declared) :
    pkg.declaredType name = .ok declared :=
  declaredType_eq_ok.2 h.2

/-- What is extracted under a name depends on what it is declared as. -/
theorem extract_of_ne_empty (hname : name ≠ "") :
    pkg.extract name = pkg.declaredType name >>= fun declared =>
      (pkg.underlying declared).mapError .unresolved >>= fun type =>
        match type with
        | .interface body => (pkg.methodSet body).mapError .unresolved >>= fun methods =>
          onlyMethod name methods >>= fun m =>
            pure ⟨m.name, hookedParams m.signature.variadic m.signature.params⟩
        | other => throw (.notAnInterface name other.canonical) := by
  rw [extract]
  exact if_neg (by simpa using hname)

/-- What is extracted from an interface depends on its methods. -/
theorem HasMethods.extract {methods : List Method} (h : pkg.HasMethods name methods) :
    pkg.extract name = onlyMethod name methods >>= fun m =>
      pure ⟨m.name, hookedParams m.signature.variadic m.signature.params⟩ := by
  obtain ⟨body, ⟨declared, hdeclared, hbody⟩, hmethods⟩ := h
  rw [extract_of_ne_empty hdeclared.1, hdeclared.declaredType]
  simp only [bind, Except.bind, hbody, hmethods, Except.mapError]

theorem refuses_of_declaredType {e : ExtractError} (hname : name ≠ "")
    (h : pkg.declaredType name = .error e) : pkg.Refuses name e := by
  rw [declaredType] at h
  split at h
  next hlookup =>
    cases h
    exact .notFound hname hlookup
  next object hlookup =>
    obtain ⟨n, kind⟩ := object
    obtain rfl : n = name := by simpa using List.find?_some hlookup
    cases kind with
    | type => cases h
    | unsupported reason =>
      cases h
      exact .unsupported hname hlookup
    | func | var | const =>
      cases h
      exact .notAType hname hlookup (by simp [kindNames])

theorem refuses_of_onlyMethod {methods : List Method} {e : ExtractError}
    (hmethods : pkg.HasMethods name methods) (h : onlyMethod name methods = .error e) :
    pkg.Refuses name e := by
  match methods with
  | [] =>
    cases h
    exact .emptyInterface hmethods
  | [m] =>
    rw [onlyMethod] at h
    split at h
    next => cases h
    next hresults =>
      cases h
      exact .hasResults hmethods fun hnil => hresults (List.isEmpty_iff.2 hnil)
  | m :: m' :: methods =>
    cases h
    exact .tooManyMethods hmethods (by simp)

/-- Whatever extraction fails with, a check refuses with it. -/
theorem refuses_of_extract {e : ExtractError} (h : pkg.extract name = .error e) :
    pkg.Refuses name e := by
  by_cases hname : name = ""
  · subst hname
    cases h
    exact .emptyName rfl
  have hchecks := @extract_of_ne_empty pkg _ hname
  rw [h] at hchecks
  -- the checks are gone through in their order; what the first of them to fail says is the error
  cases hdeclared : pkg.declaredType name with
  | error e' =>
    rw [hdeclared] at hchecks
    cases hchecks
    exact refuses_of_declaredType hname hdeclared
  | ok declared =>
    have hdeclaredAs : pkg.DeclaredAs name declared := ⟨hname, declaredType_eq_ok.1 hdeclared⟩
    cases hunderlying : pkg.underlying declared with
    | error e' =>
      rw [hdeclared] at hchecks
      simp only [bind, Except.bind, hunderlying, Except.mapError] at hchecks
      cases hchecks
      exact .unresolved hdeclaredAs hunderlying
    | ok type =>
      have hstands : pkg.StandsFor name type := ⟨declared, hdeclaredAs, hunderlying⟩
      rw [hdeclared] at hchecks
      simp only [bind, Except.bind, hunderlying, Except.mapError] at hchecks
      cases type with
      | interface body =>
        cases hmethods : pkg.methodSet body with
        | error e' =>
          simp only [hmethods] at hchecks
          cases hchecks
          exact .noMethodSet hstands hmethods
        | ok methods =>
          have hhas : pkg.HasMethods name methods := ⟨body, hstands, hmethods⟩
          cases honly : onlyMethod name methods with
          | error e' =>
            simp only [hmethods, honly] at hchecks
            cases hchecks
            exact refuses_of_onlyMethod hhas honly
          | ok m =>
            simp only [hmethods, honly] at hchecks
            cases hchecks
      | _ =>
        cases hchecks
        exact .notAnInterface hstands (by simp)

/-- What a check refuses, extraction fails with. -/
theorem Refuses.extract {e : ExtractError} (h : pkg.Refuses name e) :
    pkg.extract name = .error e := by
  -- each check comes after those before it have passed
  cases h with
  | emptyName hname =>
    subst hname
    rfl
  | notFound hname hlookup =>
    rw [extract_of_ne_empty hname, declaredType, hlookup]
    rfl
  | unsupported hname hlookup =>
    rw [extract_of_ne_empty hname, declaredType, hlookup]
    rfl
  | notAType hname hlookup hkind =>
    rw [extract_of_ne_empty hname, declaredType, hlookup]
    simp only [kindNames, List.mem_cons, Prod.mk.injEq, List.not_mem_nil, or_false] at hkind
    rcases hkind with ⟨rfl, rfl⟩ | ⟨rfl, rfl⟩ | ⟨rfl, rfl⟩ <;> rfl
  | unresolved hdeclared hunderlying =>
    rw [extract_of_ne_empty hdeclared.1, hdeclared.declaredType]
    simp only [bind, Except.bind, hunderlying, Except.mapError]
  | @notAnInterface type hstands hother =>
    obtain ⟨declared, hdeclared, hunderlying⟩ := hstands
    rw [extract_of_ne_empty hdeclared.1, hdeclared.declaredType]
    simp only [bind, Except.bind, hunderlying, Except.mapError]
    cases type with
    | interface body => exact absurd rfl (hother body)
    | _ => rfl
  | noMethodSet hstands hmethods =>
    obtain ⟨declared, hdeclared, hunderlying⟩ := hstands
    rw [extract_of_ne_empty hdeclared.1, hdeclared.declaredType]
    simp only [bind, Except.bind, hunderlying, hmethods, Except.mapError]
  | emptyInterface hmethods =>
    rw [hmethods.extract]
    rfl
  | @tooManyMethods methods hmethods hcount =>
    rw [hmethods.extract]
    obtain ⟨first, second, others, rfl⟩ : ∃ first second others, methods = first :: second :: others := by
      cases methods with
      | nil => simp at hcount
      | cons first others =>
        cases others with
        | nil => simp at hcount
        | cons second others => exact ⟨first, second, others, rfl⟩
    rfl
  | hasResults hmethods hresults =>
    rw [hmethods.extract, onlyMethod, if_neg fun h => hresults (List.isEmpty_iff.1 h)]
    rfl

/-- **Extraction fails as the first check that fails.** -/
theorem extract_eq_error {e : ExtractError} :
    pkg.extract name = .error e ↔ pkg.Refuses name e :=
  ⟨refuses_of_extract, Refuses.extract⟩

/-- **What is extracted** is a copy of the only method of an interface, if it has no results. -/
theorem extract_eq_ok_iff_copies (hpkg : pkg.WellTyped) {method : HookedMethod} :
    pkg.extract name = .ok method ↔
      ∃ m, pkg.HasMethods name [m] ∧ m.signature.results = [] ∧ method.Copies m := by
  rw [extract_eq_ok]
  constructor
  · rintro ⟨hname, m, honly, hresults, rfl⟩
    have hcopies := (hpkg.onlyMethod honly).proper.copies
    obtain ⟨declared, body, hdeclared, hbody, hmethods⟩ := honly
    exact ⟨m, ⟨body, ⟨declared, ⟨hname, declaredType_eq_ok.1 hdeclared⟩, hbody⟩, hmethods⟩,
      hresults, hcopies⟩
  · rintro ⟨m, ⟨body, ⟨declared, ⟨hname, hdeclared⟩, hbody⟩, hmethods⟩, hresults, hcopies⟩
    have honly : pkg.OnlyMethod name m :=
      ⟨declared, body, declaredType_eq_ok.2 hdeclared, hbody, hmethods⟩
    exact ⟨hname, m, honly, hresults, hcopies.unique (hpkg.onlyMethod honly).proper.copies⟩

/-- **Extraction accepts exactly the interfaces that can be hooked, and copies them.** In a package that
is loaded from sources, the hooked method under a name is a copy of the only method of the interface
that the name is declared as, if this method has no results. In all other cases the first check that
fails says why. A signature counts as variadic if it was written with three dots. -/
theorem extract_accepts_and_refuses {path : String} {sources : List SourceText}
    (hpkg : Package.ofSources path sources = .ok pkg) (name : String) :
    (∀ method, pkg.extract name = .ok method ↔
      ∃ m, pkg.HasMethods name [m] ∧ m.signature.results = [] ∧ method.Copies m) ∧
    (∀ e, pkg.extract name = .error e ↔ pkg.Refuses name e) ∧
    ∀ (scope : Scope) (type : Parser GoType) tokens parsed,
      signature scope type tokens = .ok parsed →
        (parsed.value.variadic = true ↔ WrittenWithDots type tokens) := by
  obtain ⟨package, files, hloads, rfl⟩ := Package.ofSources_eq_ok.1 hpkg
  exact ⟨fun _ => extract_eq_ok_iff_copies hloads.wellTyped, fun _ => extract_eq_error,
    fun _ _ _ _ => variadic_signature⟩

theorem extract_sink_of_alertSources :
    ∃ pkg, Package.ofSources "example.com/alert" alertSources = .ok pkg ∧
      (∀ method, pkg.extract "Sink" = .ok method ↔
        ∃ m, pkg.HasMethods "Sink" [m] ∧ m.signature.results = [] ∧ method.Copies m) ∧
      (∀ e, pkg.extract "Sink" = .error e ↔ pkg.Refuses "Sink" e) ∧
      ∀ (scope : Scope) (type : Parser GoType) tokens parsed,
        signature scope type tokens = .ok parsed →
          (parsed.value.variadic = true ↔ WrittenWithDots type tokens) := by
  obtain ⟨pkg, -, -, hpkg, -⟩ := exists_hook_of_alertSources
  exact ⟨pkg, hpkg, extract_accepts_and_refuses hpkg "Sink"⟩

end Package

end Multicast
