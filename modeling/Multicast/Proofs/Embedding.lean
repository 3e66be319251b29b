import Multicast.Proofs.Hooked

/-!
# Method sets are sound and complete

From an interface, its embedded types lead on to further interfaces, by way of a name or, where an
interface is embedded as it stands, without one. The names on a way make up a *chain*. An interface
has a method set just if every embedded type that can be reached leads on, and no chain to it has a
name twice. Of two ways to the same interface nothing is asked, so a diamond is no obstacle.

The methods are those that a walk comes by which follows the embedded types in order (`Visits`), and
of each name the first one stays. That the walk ends is part of the definition of `Package.embedAll`:
a name makes the chain longer by a name of the package, and between two names a type becomes smaller.

The predeclared interfaces embed nothing, so it does not matter that their names are kept on the chain
as well, as long as no declared type is called like one of them (`Package.KeepsNames`).

## Ways, walks and sets

`Reaches` is about ways: which interfaces can be reached, and by which names. `Visits` is about walks:
what the recursion does, in its order, with the names that it has come by. That both come by the same
interfaces is shown in two directions. A walk comes by what can be reached on a way without a name twice
(`Visits.of_reaches`), and by nothing else (`Visits.reaches`).

With this, soundness and completeness are about ways only. Success is equivalent to all ways being open,
where one direction is an induction along the recursion of `Package.embedAll` and the other one an
induction on the walk. That the recursion ends is justified where it is defined.
-/

namespace Multicast

/-! ### The first of each name

Methods are collected in order, and a method whose name is there already is left out, whatever its
signature is. So it has to be said which one stays, and not only that one does. -/

/-- Whether two methods have the same name. -/
def Method.sameName (a b : Method) : Bool := a.name == b.name

theorem addMethods_cons (found : List Method) (m : Method) (methods : List Method) :
    addMethods found (m :: methods) =
      addMethods (if found.any (·.name == m.name) then found else found ++ [m]) methods := rfl

theorem addMethods_append (found ms ns : List Method) :
    addMethods found (ms ++ ns) = addMethods (addMethods found ms) ns :=
  List.foldl_append

theorem addMethods_eq_loop (found methods : List Method) :
    addMethods found methods = List.eraseDupsBy.loop Method.sameName methods found.reverse := by
  induction methods generalizing found with
  | nil => simp [addMethods, List.eraseDupsBy.loop]
  | cons m methods ih =>
    have hany : found.reverse.any (Method.sameName m) = found.any (·.name == m.name) := by
      rw [List.any_reverse]
      exact congrArg found.any (funext fun _ => Bool.beq_comm)
    rw [addMethods_cons, ih, List.eraseDupsBy.loop, hany]
    cases found.any (·.name == m.name) <;> simp

/-- Methods that are added to none are the first of each name. -/
theorem addMethods_nil_left (methods : List Method) :
    addMethods [] methods = methods.eraseDupsBy Method.sameName :=
  addMethods_eq_loop [] methods

theorem mem_addMethods {found methods : List Method} {m : Method}
    (h : m ∈ addMethods found methods) : m ∈ found ∨ m ∈ methods := by
  induction methods generalizing found with
  | nil => exact .inl h
  | cons method methods ih =>
    rw [addMethods_cons] at h
    rcases ih h with hm | hm
    · split at hm
      · exact .inl hm
      · rcases List.mem_append.1 hm with hm | hm
        · exact .inl hm
        · exact .inr (List.mem_singleton.1 hm ▸ List.mem_cons_self)
    · exact .inr (List.mem_cons_of_mem _ hm)

/-- Every name is there that was added. -/
theorem exists_mem_addMethods {found methods : List Method} {m : Method}
    (h : m ∈ found ∨ m ∈ methods) : ∃ m' ∈ addMethods found methods, m'.name = m.name := by
  induction methods generalizing found m with
  | nil => exact ⟨m, h.resolve_right (by simp), rfl⟩
  | cons method methods ih =>
    rw [addMethods_cons]
    have hstep (hm : m ∈ found ∨ m = method) : ∃ m' ∈ (if found.any (·.name == method.name)
        then found else found ++ [method]), m'.name = m.name := by
      split
      next hany =>
        rcases hm with hm | rfl
        · exact ⟨m, hm, rfl⟩
        · simpa using hany
      next => exact ⟨m, by simpa using hm, rfl⟩
    rcases h with hm | hm
    · obtain ⟨m', hm', hname⟩ := hstep (.inl hm)
      exact hname ▸ ih (.inl hm')
    · rcases List.mem_cons.1 hm with heq | hm
      · obtain ⟨m', hm', hname⟩ := hstep (.inr heq)
        exact hname ▸ ih (.inl hm')
      · exact ih (.inr hm)

/-- No name is there twice. -/
theorem nodup_addMethods {found : List Method} (h : (found.map Method.name).Nodup)
    (methods : List Method) : ((addMethods found methods).map Method.name).Nodup := by
  induction methods generalizing found with
  | nil => exact h
  | cons method methods ih =>
    rw [addMethods_cons]
    refine ih ?_
    split
    · exact h
    next hnew =>
      rw [List.map_append, List.nodup_append]
      refine ⟨h, by simp, ?_⟩
      simp_all

/-! ### Where embedded types lead -/

namespace Package

variable (pkg : Package)

/-- No declared type is called like a predeclared interface. -/
def KeepsNames : Prop :=
  ∀ n ∈ ["error", "any"], ∀ object ∈ pkg.lookup? n, object.kind.isType = false

instance : Decidable pkg.KeepsNames :=
  inferInstanceAs (Decidable (∀ n ∈ ["error", "any"], ∀ object ∈ pkg.lookup? n, _))

/-- **What an embedded type leads to**: an interface as it stands, a predeclared one, or, under its
name, one that a declared type of the package stands for. -/
inductive Leads : GoType → Option String → Interface → Prop
  | literal (body : Interface) : Leads (.interface body) none body
  | error : Leads (.basic "error") none GoType.errorInterface
  | any : Leads (.basic "any") none GoType.anyInterface
  | declared {n : String} {body : Interface}
    (h : pkg.underlying (.named pkg.id n) = .ok (.interface body)) :
    Leads (.named pkg.id n) (some n) body

/-- The interfaces that embedded types lead to, and the names on the way, the last one first. -/
inductive Reaches (body : Interface) : List String → Interface → Prop
  | self : Reaches body [] body
  | step {chain : List String} {via next : Interface} {t : GoType} {name : Option String}
    (h : Reaches body chain via) (ht : t ∈ via.embeds) (hleads : pkg.Leads t name next) :
    Reaches body (name.toList ++ chain) next

/-- **Every way from an interface is open**: no chain has a name twice, and every embedded type that
can be reached leads on. -/
def Open (body : Interface) : Prop :=
  ∀ chain via, pkg.Reaches body chain via →
    chain.Nodup ∧ ∀ t ∈ via.embeds, ∃ name next, pkg.Leads t name next

/-- **A walk** along embedded types: the methods that it comes by, those of an interface before those
of the interfaces that it embeds. Names on the way from `chain` are new. -/
inductive Visits : List String → List GoType → List Method → Prop
  | nil {chain : List String} : Visits chain [] []
  | cons {chain : List String} {t : GoType} {name : Option String} {body : Interface}
    {types : List GoType} {inner methods : List Method} (hleads : pkg.Leads t name body)
    (hnew : ∀ n ∈ name, n ∉ chain) (hinner : Visits (name.toList ++ chain) body.embeds inner)
    (h : Visits chain types methods) :
    Visits chain (t :: types) (body.methods ++ inner ++ methods)

/-- **The method set of an interface**: its own methods and those that a walk along the embedded types
comes by, the first one of each name. -/
structure IsMethodSet (body : Interface) (methods : List Method) : Prop where
  distinct : (methods.map Method.name).Nodup
  sound : ∀ m ∈ methods, ∃ chain via, pkg.Reaches body chain via ∧ m ∈ via.methods
  complete : ∀ chain via, pkg.Reaches body chain via →
    ∀ m ∈ via.methods, ∃ m' ∈ methods, m'.name = m.name
  order : ∃ visited, pkg.Visits [] body.embeds visited ∧
    methods = (body.methods ++ visited).eraseDupsBy Method.sameName

variable {pkg}

/-- What a type leads to is told by the type. -/
theorem Leads.unique {t : GoType} {name name' : Option String} {body body' : Interface}
    (h : pkg.Leads t name body) (h' : pkg.Leads t name' body') : name = name' ∧ body = body' := by
  cases h with
  | literal =>
    cases h'
    exact ⟨rfl, rfl⟩
  | declared h =>
    cases h' with
    | declared h' => exact ⟨rfl, by simpa [h] using h'⟩
  | error =>
    generalize ht : GoType.basic "error" = t at h'
    cases h' <;> simp_all
  | any =>
    generalize ht : GoType.basic "any" = t at h'
    cases h' <;> simp_all

/-- The names on a chain are those of declared types. -/
theorem KeepsNames.not_mem (hpkg : pkg.KeepsNames) {body via : Interface} {chain : List String}
    (h : pkg.Reaches body chain via) {n : String} (hn : n = "error" ∨ n = "any") : n ∉ chain := by
  induction h with
  | self => simp
  | step _ _ hleads ih =>
    cases hleads with
    | @declared n' next h =>
      simp only [Option.toList_some, List.singleton_append, List.mem_cons, not_or]
      refine ⟨?_, ih⟩
      rintro rfl
      rw [underlying, underlyingFrom] at h
      simp only [List.not_mem_nil, dite_false, reduceIte] at h
      split at h
      next hlookup => cases hpkg n (by simpa using hn) _ hlookup
      next => cases h
      next => cases h
    | _ => exact ih

/-! ### Walks

A walk is given as a relation so that its order can be spoken of. The names that it keeps are those of the
way, not of all interfaces that it has come by, and this is what makes a diamond harmless. -/

/-- A walk goes through each of its types. -/
theorem Visits.through {chain : List String} {types : List GoType} {visited : List Method}
    (h : pkg.Visits chain types visited) {t : GoType} (ht : t ∈ types) :
    ∃ name body inner, pkg.Leads t name body ∧ (∀ n ∈ name, n ∉ chain) ∧
      pkg.Visits (name.toList ++ chain) body.embeds inner ∧
      body.methods ++ inner ⊆ visited := by
  induction h with
  | nil => cases ht
  | cons hleads hnew hinner h _ ih =>
    rcases List.mem_cons.1 ht with rfl | ht
    · exact ⟨_, _, _, hleads, hnew, hinner, List.subset_append_left _ _⟩
    · obtain ⟨name, body, inner, hleads, hnew, hinner, hsub⟩ := ih ht
      exact ⟨name, body, inner, hleads, hnew, hinner,
        List.Subset.trans hsub (List.subset_append_right _ _)⟩

/-- **A walk comes by everything that can be reached**, on ways without a name twice. -/
theorem Visits.of_reaches {body : Interface} {visited : List Method}
    (h : pkg.Visits [] body.embeds visited) {chain : List String} {via : Interface}
    (hreaches : pkg.Reaches body chain via) :
    chain.Nodup ∧ ∃ inner, pkg.Visits chain via.embeds inner ∧
      via.methods ++ inner ⊆ body.methods ++ visited := by
  induction hreaches with
  | self => exact ⟨.nil, visited, h, List.Subset.refl _⟩
  | @step _ _ _ _ name _ ht hleads ih =>
    obtain ⟨hnodup, inner, hinner, hsub⟩ := ih
    obtain ⟨_, _, more, hleads', hnew, hmore, hsub'⟩ := hinner.through ht
    obtain ⟨rfl, rfl⟩ := hleads.unique hleads'
    refine ⟨?_, more, hmore, List.Subset.trans hsub' fun m hm => hsub (List.mem_append_right _ hm)⟩
    cases name with
    | none => exact hnodup
    | some n => exact List.nodup_cons.2 ⟨hnew n rfl, hnodup⟩

/-- **A walk comes by nothing else.** -/
theorem Visits.reaches {body via : Interface} {chain : List String}
    (hreaches : pkg.Reaches body chain via) {types : List GoType} {visited : List Method}
    (h : pkg.Visits chain types visited) (hsub : types ⊆ via.embeds) :
    ∀ m ∈ visited, ∃ chain' via', pkg.Reaches body chain' via' ∧ m ∈ via'.methods := by
  induction h generalizing via with
  | nil => simp
  | cons hleads hnew hinner h ihInner ih =>
    have hnext := hreaches.step (hsub List.mem_cons_self) hleads
    intro m hm
    rcases List.mem_append.1 hm with hm | hm
    · rcases List.mem_append.1 hm with hm | hm
      · exact ⟨_, _, hnext, hm⟩
      · exact ihInner hnext (List.Subset.refl _) m hm
    · exact ih hreaches (fun t ht => hsub (List.mem_cons_of_mem _ ht)) m hm

/-! ### What embedding does -/

/-- The name of a predeclared interface leads to it, and no further. -/
theorem exists_predeclared (pkg : Package) {n : String} (hn : n = "error" ∨ n = "any") :
    ∃ body, pkg.underlying (.basic n) = .ok (.interface body) ∧ pkg.Leads (.basic n) none body ∧
      body.embeds = [] := by
  rcases hn with rfl | rfl
  · exact ⟨_, by rw [underlying, underlyingFrom]; rfl, .error, rfl⟩
  · exact ⟨_, by rw [underlying, underlyingFrom]; rfl, .any, rfl⟩

/-- **Embedding is a walk**, and adds what the walk comes by. -/
theorem exists_visits {chain : List String} {found methods : List Method} {types : List GoType}
    (h : pkg.embedAll chain found types = .ok methods) :
    ∃ visited, pkg.Visits chain types visited ∧ methods = addMethods found visited := by
  fun_induction pkg.embedAll chain found types generalizing methods with
  | case1 chain found =>
    cases h
    exact ⟨[], .nil, rfl⟩
  | case3 chain found own inner types first hinner ih ih' =>
    obtain ⟨visited, hvisited, rfl⟩ := ih hinner
    obtain ⟨more, hmore, rfl⟩ := ih' h
    refine ⟨own ++ visited ++ more, .cons (.literal _) (by simp) hvisited hmore, ?_⟩
    rw [addMethods_append, addMethods_append]
  | case7 chain found n types hnew own inner first hinner hunderlying ih ih' =>
    obtain ⟨visited, hvisited, rfl⟩ := ih hinner
    obtain ⟨more, hmore, rfl⟩ := ih' h
    refine ⟨own ++ visited ++ more, .cons (.declared hunderlying) (by simpa) hvisited hmore, ?_⟩
    rw [addMethods_append, addMethods_append]
  | case13 chain found n types hbasic _ own inner hunderlying first hinner ih ih' =>
    obtain ⟨more, hmore, rfl⟩ := ih' h
    obtain ⟨_, hbody, hleads, hnone⟩ := exists_predeclared pkg hbasic
    cases hunderlying.symm.trans hbody
    obtain rfl : inner = [] := hnone
    obtain rfl : addMethods found own = first := by
      rw [embedAll] at hinner
      exact Except.ok.inj hinner
    refine ⟨own ++ [] ++ more, .cons hleads (by simp) .nil hmore, ?_⟩
    rw [List.append_nil, addMethods_append]
  | _ => cases h

/-- **Embedding succeeds where all ways are open.** -/
theorem KeepsNames.embedAll_of_open (hpkg : pkg.KeepsNames) {body : Interface} (hopen : pkg.Open body)
    {chain : List String} {via : Interface} (hreaches : pkg.Reaches body chain via)
    {types : List GoType} (hsub : types ⊆ via.embeds) (found : List Method) :
    ∃ methods, pkg.embedAll chain found types = .ok methods := by
  -- the first of the types leads on, and the rest are embedded in the same interface
  have hleads {t : GoType} {ts : List GoType} {chain : List String} {via : Interface}
      (hreaches : pkg.Reaches body chain via) (hsub : t :: ts ⊆ via.embeds) :
      ∃ name next, pkg.Leads t name next ∧ pkg.Reaches body (name.toList ++ chain) next ∧
        ts ⊆ via.embeds := by
    have ht := hsub List.mem_cons_self
    obtain ⟨name, next, hleads⟩ := (hopen chain via hreaches).2 t ht
    exact ⟨name, next, hleads, hreaches.step ht hleads, fun s hs => hsub (List.mem_cons_of_mem _ hs)⟩
  fun_induction pkg.embedAll chain found types generalizing via with
  | case1 chain found => exact ⟨found, rfl⟩
  -- in the cases of an error, the way it was met on is open
  | case2 chain found own inner types e herror ih =>
    obtain ⟨_, _, ⟨⟩, hnext, -⟩ := hleads hreaches hsub
    obtain ⟨methods, hok⟩ := ih hnext (List.Subset.refl _)
    cases herror.symm.trans hok
  | case3 chain found own inner types first hinner ih ih' =>
    obtain ⟨_, _, -, -, hrest⟩ := hleads hreaches hsub
    exact ih' hreaches hrest
  -- a name that is met again would stand twice in an open chain
  | case4 chain found n types hmem =>
    obtain ⟨_, _, ⟨⟩, hnext, -⟩ := hleads hreaches hsub
    exact absurd hmem (List.nodup_cons.1 (hopen _ _ hnext).1).1
  | case5 chain found n types hnew e herror =>
    obtain ⟨_, _, hdeclared, -, -⟩ := hleads hreaches hsub
    cases hdeclared with
    | declared h => cases herror.symm.trans h
  | case6 chain found n types hnew own inner e herror hunderlying ih =>
    obtain ⟨_, _, hdeclared, hnext, -⟩ := hleads hreaches hsub
    cases hdeclared with
    | declared h =>
      cases hunderlying.symm.trans h
      obtain ⟨methods, hok⟩ := ih hnext (List.Subset.refl _)
      cases herror.symm.trans hok
  | case7 chain found n types hnew own inner first hinner hunderlying ih ih' =>
    obtain ⟨_, _, -, -, hrest⟩ := hleads hreaches hsub
    exact ih' hreaches hrest
  | case8 chain found n types hnew t hother hunderlying =>
    obtain ⟨_, ⟨_, _⟩, hdeclared, -, -⟩ := hleads hreaches hsub
    cases hdeclared with
    | declared h =>
      cases hunderlying.symm.trans h
      exact absurd rfl (hother _ _)
  | case9 chain found package n types hforeign =>
    obtain ⟨_, _, hdeclared, -, -⟩ := hleads hreaches hsub
    cases hdeclared with
    | declared => exact absurd rfl hforeign
  -- predeclared interfaces are no part of a chain, as names are kept
  | case10 chain found n types hbasic hmem => exact absurd hmem (hpkg.not_mem hreaches hbasic)
  | case11 chain found n types hbasic _ e herror =>
    obtain ⟨_, hbody, -, -⟩ := exists_predeclared pkg hbasic
    cases herror.symm.trans hbody
  | case12 chain found n types hbasic _ own inner hunderlying e herror ih =>
    obtain ⟨_, hbody, -, hnone⟩ := exists_predeclared pkg hbasic
    cases hunderlying.symm.trans hbody
    obtain rfl : inner = [] := hnone
    rw [embedAll] at herror
    cases herror
  | case13 chain found n types hbasic _ own inner hunderlying first hinner ih ih' =>
    obtain ⟨_, _, -, -, hrest⟩ := hleads hreaches hsub
    exact ih' hreaches hrest
  | case14 chain found n types hbasic _ t hother hunderlying =>
    obtain ⟨⟨_, _⟩, hbody, -, -⟩ := exists_predeclared pkg hbasic
    cases hunderlying.symm.trans hbody
    exact absurd rfl (hother _ _)
  -- the remaining types lead nowhere
  | case15 chain found n types hbasic =>
    obtain ⟨_, _, hpredeclared, -, -⟩ := hleads hreaches hsub
    cases hpredeclared with
    | error => exact absurd (.inl rfl) hbasic
    | any => exact absurd (.inr rfl) hbasic
  | case16 chain found t types hliteral hnamed hbasic =>
    obtain ⟨_, ⟨_, _⟩, hother, -, -⟩ := hleads hreaches hsub
    cases hother with
    | literal => exact absurd rfl (hliteral _ _)
    | declared => exact absurd rfl (hnamed _ _)
    | error => exact absurd rfl (hbasic _)
    | any => exact absurd rfl (hbasic _)

/-! ### The method set -/

theorem isMethodSet_of_methodSet {body : Interface} {methods : List Method}
    (h : pkg.methodSet body = .ok methods) : pkg.IsMethodSet body methods := by
  obtain ⟨visited, hvisited, rfl⟩ := exists_visits h
  rw [← addMethods_append]
  refine ⟨nodup_addMethods (by simp) _, fun m hm => ?_, fun chain via hreaches m hm => ?_,
    visited, hvisited, addMethods_nil_left _⟩
  · rcases List.mem_append.1 ((mem_addMethods hm).resolve_left (by simp)) with hown | hmet
    · exact ⟨[], body, .self, hown⟩
    · exact hvisited.reaches .self (List.Subset.refl _) m hmet
  · obtain ⟨-, inner, -, hsub⟩ := hvisited.of_reaches hreaches
    exact exists_mem_addMethods (.inr (hsub (List.mem_append_left _ hm)))

theorem open_of_methodSet {body : Interface} {methods : List Method}
    (h : pkg.methodSet body = .ok methods) : pkg.Open body := by
  obtain ⟨visited, hvisited, -⟩ := exists_visits h
  intro chain via hreaches
  obtain ⟨hnodup, inner, hinner, -⟩ := hvisited.of_reaches hreaches
  refine ⟨hnodup, fun t ht => ?_⟩
  obtain ⟨name, next, -, hleads, -⟩ := hinner.through ht
  exact ⟨name, next, hleads⟩

theorem KeepsNames.methodSet_eq_ok (hpkg : pkg.KeepsNames) {body : Interface} :
    (∃ methods, pkg.methodSet body = .ok methods) ↔ pkg.Open body :=
  ⟨fun ⟨_, h⟩ => open_of_methodSet h,
    fun h => hpkg.embedAll_of_open h .self (List.Subset.refl _) _⟩

/-- A way from an interface begins with one of its embedded types. -/
theorem Reaches.of_embed {body via : Interface} {chain : List String}
    (h : pkg.Reaches body chain via) :
    chain = [] ∧ via = body ∨ ∃ t ∈ body.embeds, pkg.Reaches ⟨[], [t]⟩ chain via := by
  induction h with
  | self => exact .inl ⟨rfl, rfl⟩
  | step h ht hleads ih =>
    rcases ih with ⟨rfl, rfl⟩ | ⟨s, hs, hreaches⟩
    · exact .inr ⟨_, ht, Reaches.self.step (List.mem_singleton.2 rfl) hleads⟩
    · exact .inr ⟨s, hs, hreaches.step ht hleads⟩

/-- All ways are open from an interface if they are from each of its embedded types. -/
theorem open_of_embeds {body : Interface} (h : ∀ t ∈ body.embeds, pkg.Open ⟨[], [t]⟩) :
    pkg.Open body := by
  intro chain via hreaches
  rcases hreaches.of_embed with ⟨rfl, rfl⟩ | ⟨t, ht, hreaches⟩
  · exact ⟨.nil, fun t ht => (h t ht [] _ .self).2 t (List.mem_singleton.2 rfl)⟩
  · exact h t ht chain via hreaches

/-- **Method sets are sound and complete for embedding.** An interface has a method set just if all
ways from it are open, and then it has the one that a walk along them gives. Types that can each be
embedded can be embedded together, whatever they share. -/
theorem methodSet_sound_and_complete (hpkg : pkg.KeepsNames) (body : Interface) :
    ((∃ methods, pkg.methodSet body = .ok methods) ↔ pkg.Open body) ∧
      (∀ methods, pkg.methodSet body = .ok methods → pkg.IsMethodSet body methods) ∧
      ((∀ t ∈ body.embeds, ∃ methods, pkg.methodSet ⟨[], [t]⟩ = .ok methods) →
        ∃ methods, pkg.methodSet body = .ok methods) := by
  refine ⟨hpkg.methodSet_eq_ok, fun methods => isMethodSet_of_methodSet, fun h => ?_⟩
  refine hpkg.methodSet_eq_ok.2 (open_of_embeds fun t ht => ?_)
  exact hpkg.methodSet_eq_ok.1 (h t ht)

end Package

/-- A package where `Left` and `Right` share what they embed, and `Loop` embeds itself. -/
def diamond : Package :=
  let id : PackageId := ⟨"m/shapes", "shapes"⟩
  let declare (name : String) (own : List String) (embeds : List GoType) : Object :=
    ⟨name, .type (.interface ⟨own.map fun m => ⟨m, ⟨[], [], false⟩⟩, embeds⟩) false⟩
  [declare "Base" ["M"] [.basic "error"], declare "Left" ["L"] [.named id "Base"],
    declare "Right" ["R", "L"] [.basic "any", .named id "Base"],
    declare "Loop" [] [.named id "Loop"]].foldl Package.insert (.empty id)

/-- Both sides of the diamond embedded at once. -/
def bothSides : Interface :=
  ⟨[], [.named diamond.id "Left", .named diamond.id "Right"]⟩

/-- What the diamond has in common is no obstacle. -/
theorem methodSet_bothSides :
    ((∃ methods, diamond.methodSet bothSides = .ok methods) ↔ diamond.Open bothSides) ∧
      (∀ methods, diamond.methodSet bothSides = .ok methods →
        diamond.IsMethodSet bothSides methods) ∧
      ((∀ t ∈ bothSides.embeds, ∃ methods, diamond.methodSet ⟨[], [t]⟩ = .ok methods) →
        ∃ methods, diamond.methodSet bothSides = .ok methods) :=
  Package.methodSet_sound_and_complete (by decide +kernel) bothSides

end Multicast
