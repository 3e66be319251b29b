import Multicast.Proofs.ForwardedBack

/-!
# Arguments are passed on

The forwarding method has a name for each parameter of the hooked method, declares the parameters
under these names, and passes each of them on. A parameter that has a name of its own keeps it; a
blank one is called after its place. `HookedParam.PassedAs` says of one parameter how it is declared
and passed on under a name: as it is, or, if it takes any number of arguments, with three dots at
both places.

Names that are made up look like names that are given, and nothing keeps them apart: a parameter can
be called just as one at another place would be if it were blank (`arg1`, and a blank one behind
it). So the names are distinct just where this does not happen (`HookedMethod.Collides`,
`forwarding_of_extract`), and where it does a name is declared twice (`forwarding_of_boxSources`).

## When names collide

A blank parameter at place `i` is called `arg` with this number behind it. Two blank ones never have the
same name, since numbers are told apart by their digits; a given name and one that is made up may be
equal, and then only if a parameter was given a name of this form. So the exact condition is on pairs of
places (`Collides`), and the list of names has no repetitions just if there is no such pair and the given
names have none.
-/

namespace Multicast

open Source

/-! ### One parameter

Three dots are written at both places or at neither. The type behind the dots is that of the elements. -/

/-- A parameter as it is declared in the package at `destination`. -/
def HookedParam.declaredIn (destination : String) (p : HookedParam) : String :=
  match p.type, p.variadicTail with
  | .slice elem, true => p.name ++ " ..." ++ elem.render (shortIn destination)
  | type, _ => p.name ++ " " ++ type.render (shortIn destination)

theorem HookedParam.toList_declaredIn (destination : String) {p : HookedParam} (h : p.name ≠ "") :
    (p.declaredIn destination).toList = textOf (p.pieces (shortIn destination)) := by
  obtain ⟨name, type, tail⟩ := p
  have hname : name ≠ "" := h
  cases tail with
  | false => cases type <;> simp [declaredIn, pieces, paramPieces, hname, GoType.toList_render]
  | true => cases type <;> simp [declaredIn, pieces, paramPieces, hname, GoType.toList_render]

/-- **A parameter is passed on in one of two ways**: as it is, or with three dots at both places. -/
theorem HookedParam.declaredIn_passed (destination : String) (p : HookedParam) :
    ((p.variadicTail = true → p.type.isSlice = false) ∧ p.passed = p.name ∧
        p.declaredIn destination = p.name ++ " " ++ p.type.render (shortIn destination)) ∨
      ∃ elem, p.variadicTail = true ∧ p.type = .slice elem ∧ p.passed = p.name ++ "..." ∧
        p.declaredIn destination = p.name ++ " ..." ++ elem.render (shortIn destination) := by
  obtain ⟨name, type, tail⟩ := p
  cases tail with
  | false => exact .inl ⟨by simp, by cases type <;> rfl, by cases type <;> rfl⟩
  | true =>
    cases type with
    | slice elem => exact .inr ⟨elem, rfl, rfl, rfl, rfl⟩
    | _ => exact .inl ⟨fun _ => rfl, rfl, rfl⟩

/-- A declared parameter begins with its name. -/
theorem HookedParam.name_prefix_declaredIn (destination : String) (p : HookedParam) :
    (p.name ++ " ").toList <+: (p.declaredIn destination).toList := by
  rcases p.declaredIn_passed destination with ⟨-, -, h⟩ | ⟨elem, -, -, -, h⟩
  · simp [h]
  · simp [h]

/-- **How a parameter is passed on** under a name, in the package at `destination`. -/
structure HookedParam.PassedAs (destination : String) (p : HookedParam)
    (name declared passed : String) : Prop where
  named : (name ++ " ").toList <+: declared.toList
  passed : passed = if p.variadicTail then name ++ "..." else name
  plain : p.variadicTail = false →
    declared = name ++ " " ++ p.type.render (shortIn destination)
  tail : p.variadicTail = true → ∃ elem, p.type = .slice elem ∧
    declared = name ++ " ..." ++ elem.render (shortIn destination)

/-- A parameter is passed on under any name that is put in the place of its own. -/
theorem HookedParam.passedAs (destination : String) {p : HookedParam}
    (h : p.variadicTail = true → p.type.isSlice = true) (name : String) :
    p.PassedAs destination name (HookedParam.declaredIn destination { p with name })
      (HookedParam.passed { p with name }) := by
  have hnamed := name_prefix_declaredIn destination { p with name }
  rcases declaredIn_passed destination { p with name } with
    ⟨hplain, hpassed, hdeclared⟩ | ⟨elem, htail, hslice, hpassed, hdeclared⟩
  · have hfalse : p.variadicTail = false := by
      by_contra htail
      have htail := eq_true_of_ne_false htail
      cases (hplain htail).symm.trans (h htail)
    exact ⟨hnamed, by rw [hpassed, hfalse]; rfl, fun _ => hdeclared, by simp [hfalse]⟩
  · have htrue : p.variadicTail = true := htail
    exact ⟨hnamed, by rw [hpassed, htrue]; rfl, by simp [htrue], fun _ => ⟨elem, hslice, hdeclared⟩⟩

/-! ### All parameters -/

theorem getElem?_forwarded (index : Nat) (ps : List HookedParam) (i : Nat) :
    (forwarded index ps)[i]? =
      ps[i]?.map fun p => { p with name := p.forwardedName (index + i) } := by
  induction ps generalizing index i with
  | nil => rfl
  | cons p ps ih =>
    cases i with
    | zero => rfl
    | succ i =>
      rw [forwarded, List.getElem?_cons_succ, List.getElem?_cons_succ, ih, Nat.add_right_comm]
      rfl

@[simp] theorem length_forwarded (index : Nat) (ps : List HookedParam) :
    (forwarded index ps).length = ps.length := by
  have hlength := congrArg List.length (type_forwarded index ps)
  rwa [List.length_map, List.length_map] at hlength

theorem name_ne_empty_of_mem_forwarded {index : Nat} {ps : List HookedParam} {p : HookedParam}
    (h : p ∈ forwarded index ps) : p.name ≠ "" := by
  obtain ⟨i, hi⟩ := List.mem_iff_getElem?.1 h
  rw [getElem?_forwarded] at hi
  obtain ⟨q, -, rfl⟩ := Option.map_eq_some_iff.1 hi
  exact forwardedName_ne_empty q _

/-- The names of the parameters in the forwarding method. -/
def HookedMethod.forwardedNames (method : HookedMethod) : List String :=
  (forwarded 0 method.params).map HookedParam.name

/-- **What the forwarding method declares and passes on**, and under which names. -/
theorem HookedMethod.run_forwarding (method : HookedMethod) (destination : String) (paths : Paths) :
    ∃ noted, (method.forwarding destination).run paths =
      (⟨(forwarded 0 method.params).map (HookedParam.declaredIn destination),
        (forwarded 0 method.params).map HookedParam.passed, method.forwardedNames⟩, noted) := by
  obtain ⟨⟨declaration, call, names⟩, hdeclaration, hcall, hnames, packages, hnotes, -⟩ :=
    renders_forwardAll destination 0 method.params
  have hdeclared : (forwarded 0 method.params).map
      (textOf ∘ HookedParam.pieces (shortIn destination)) =
      ((forwarded 0 method.params).map (HookedParam.declaredIn destination)).map String.toList := by
    rw [List.map_map]
    exact List.map_congr_left fun p hp =>
      (HookedParam.toList_declaredIn destination (name_ne_empty_of_mem_forwarded hp)).symm
  obtain rfl := List.map_injective_iff.2 (fun _ _ => String.toList_inj.1)
    (hdeclaration.trans hdeclared)
  obtain rfl : call = _ := hcall
  obtain rfl : names = _ := hnames
  exact ⟨_, hnotes paths⟩

/-- **A plan that succeeds**, slot by slot. -/
theorem HookFile.ofMethod_eq_ok {config : Config} {method : HookedMethod} {target : Target}
    {t : HookFile} (h : HookFile.ofMethod config method target = .ok t) : ∃ mentioned, t = {
      packageName := target.packageName
      imports := target.imports mentioned
      hookName := config.destination.hookName
      interfaceRef := target.interfaceRef config.source.object
      methodName := method.name
      declarationArgs := (forwarded 0 method.params).map
        (HookedParam.declaredIn target.destination.path)
      callArgs := (forwarded 0 method.params).map HookedParam.passed
      threadSafe := config.threadSafe
      receiver := freshName "h" (method.forwardedNames ++ ["item", "entry"])
      entry := freshName "entry" (method.forwardedNames ++
        [freshName "h" (method.forwardedNames ++ ["item", "entry"])]) } := by
  obtain ⟨mentioned, hrun⟩ := method.run_forwarding target.destination.path []
  rw [HookFile.ofMethod] at h
  split at h
  next => cases h
  split at h
  next => cases h
  rw [hrun] at h
  exact ⟨mentioned, (Except.ok.inj h).symm⟩

/-! ### Names that are given and names that are made up -/

/-- Numbers are told apart by their digits. -/
theorem numbered_inj {word : String} {m n : Nat} (h : word ++ toString m = word ++ toString n) :
    m = n := by
  have hdigits : (toString m).toList = (toString n).toList := by
    have htext := congrArg String.toList h
    rwa [String.toList_append, String.toList_append, List.append_cancel_left_eq] at htext
  have hvalue := congrArg (fun digits => Nat.ofDigitChars 10 digits 0) hdigits
  simpa [Nat.toString_eq_ofList_toDigits] using hvalue

/-- The name of the forwarding method's parameter at a place. -/
theorem HookedParam.forwardedName_of_isUnnamed {p : HookedParam} (h : p.isUnnamed = true)
    (index : Nat) : p.forwardedName index = "arg" ++ toString index :=
  if_pos h

theorem HookedParam.forwardedName_of_named {p : HookedParam} (h : p.isUnnamed = false)
    (index : Nat) : p.forwardedName index = p.name :=
  if_neg (by simp [h])

namespace HookedMethod

variable {method : HookedMethod}

/-- The names that parameters are given, blank ones aside. -/
def givenNames (method : HookedMethod) : List String :=
  (method.params.filter fun p => !p.isUnnamed).map HookedParam.name

/-- A parameter is given the name that is made up for a blank one. -/
def Collides (method : HookedMethod) : Prop :=
  ∃ (i : Nat) (p : HookedParam), method.params[i]? = some p ∧ p.isUnnamed = true ∧
    "arg" ++ toString i ∈ method.givenNames

theorem getElem?_forwardedNames (i : Nat) :
    method.forwardedNames[i]? = method.params[i]?.map (·.forwardedName i) := by
  rw [forwardedNames, List.getElem?_map, getElem?_forwarded, Option.map_map, Nat.zero_add]
  rfl

theorem mem_givenNames {n : String} : n ∈ method.givenNames ↔
    ∃ (i : Nat) (p : HookedParam), method.params[i]? = some p ∧ p.isUnnamed = false ∧
      p.name = n := by
  rw [givenNames, List.mem_map]
  constructor
  · rintro ⟨p, hp, rfl⟩
    obtain ⟨hmem, hnamed⟩ := List.mem_filter.1 hp
    obtain ⟨i, hi⟩ := List.mem_iff_getElem?.1 hmem
    exact ⟨i, p, hi, by simpa using hnamed, rfl⟩
  · rintro ⟨i, p, hi, hnamed, rfl⟩
    exact ⟨p, List.mem_filter.2 ⟨List.mem_of_getElem? hi, by simp [hnamed]⟩, rfl⟩

/-- Given names that are distinct are so at any two places. -/
theorem ne_of_nodup_givenNames (h : method.givenNames.Nodup) {i j : Nat} (hlt : i < j)
    {p q : HookedParam} (hi : method.params[i]? = some p) (hj : method.params[j]? = some q)
    (hp : p.isUnnamed = false) (hq : q.isUnnamed = false) : p.name ≠ q.name := by
  have hpairs := List.pairwise_filter.1 (List.pairwise_map.1 h)
  obtain ⟨hiLt, rfl⟩ := List.getElem?_eq_some_iff.1 hi
  obtain ⟨hjLt, rfl⟩ := List.getElem?_eq_some_iff.1 hj
  exact List.pairwise_iff_getElem.1 hpairs i j hiLt hjLt hlt (by simp [hp]) (by simp [hq])

/-- **The names of the forwarding method are distinct** if the given ones are, and none of these is
made up for a blank parameter. -/
theorem nodup_forwardedNames_iff (h : method.givenNames.Nodup) :
    method.forwardedNames.Nodup ↔ ¬ method.Collides := by
  constructor
  · rintro hdistinct ⟨i, p, hi, hp, hmem⟩
    obtain ⟨j, q, hj, hq, hname⟩ := mem_givenNames.1 hmem
    have hnames : method.forwardedNames[i]? = method.forwardedNames[j]? := by
      rw [getElem?_forwardedNames, getElem?_forwardedNames, hi, hj, Option.map_some,
        Option.map_some, HookedParam.forwardedName_of_isUnnamed hp,
        HookedParam.forwardedName_of_named hq, hname]
    have hlength : i < method.forwardedNames.length := by
      obtain ⟨hlt, -⟩ := List.getElem?_eq_some_iff.1 hi
      simpa [forwardedNames] using hlt
    obtain rfl := (List.getElem?_inj hlength hdistinct).1 hnames
    obtain rfl := Option.some.inj (hi.symm.trans hj)
    cases hp.symm.trans hq
  · intro hfree
    rw [List.nodup_iff_getElem?_ne_getElem?]
    intro i j hlt hlength heq
    have hjLt : j < method.params.length := by simpa [forwardedNames] using hlength
    obtain ⟨p, hi⟩ : ∃ p, method.params[i]? = some p :=
      ⟨_, List.getElem?_eq_getElem (Nat.lt_trans hlt hjLt)⟩
    obtain ⟨q, hj⟩ : ∃ q, method.params[j]? = some q := ⟨_, List.getElem?_eq_getElem hjLt⟩
    rw [getElem?_forwardedNames, getElem?_forwardedNames, hi, hj, Option.map_some,
      Option.map_some, Option.some_inj] at heq
    -- of two equal names neither, one or both can be made up
    cases hp : p.isUnnamed with
    | true =>
      rw [HookedParam.forwardedName_of_isUnnamed hp] at heq
      cases hq : q.isUnnamed with
      | true =>
        rw [HookedParam.forwardedName_of_isUnnamed hq] at heq
        exact absurd (numbered_inj heq) (Nat.ne_of_lt hlt)
      | false =>
        rw [HookedParam.forwardedName_of_named hq] at heq
        exact hfree ⟨i, p, hi, hp, mem_givenNames.2 ⟨j, q, hj, hq, heq.symm⟩⟩
    | false =>
      rw [HookedParam.forwardedName_of_named hp] at heq
      cases hq : q.isUnnamed with
      | true =>
        rw [HookedParam.forwardedName_of_isUnnamed hq] at heq
        exact hfree ⟨j, q, hj, hq, mem_givenNames.2 ⟨i, p, hi, hp, heq⟩⟩
      | false =>
        rw [HookedParam.forwardedName_of_named hq] at heq
        exact ne_of_nodup_givenNames h hlt hi hj hp hq heq

theorem length_forwardedNames : method.forwardedNames.length = method.params.length := by
  rw [forwardedNames, List.length_map, length_forwarded]

/-- No name of the forwarding method is blank. -/
theorem ne_blank_of_mem_forwardedNames {n : String} (h : n ∈ method.forwardedNames) : n ≠ "_" := by
  obtain ⟨i, hi⟩ := List.mem_iff_getElem?.1 h
  rw [getElem?_forwardedNames] at hi
  obtain ⟨p, -, rfl⟩ := Option.map_eq_some_iff.1 hi
  cases hp : p.isUnnamed with
  | true =>
    rw [HookedParam.forwardedName_of_isUnnamed hp]
    simp [← String.toList_inj]
  | false =>
    rw [HookedParam.forwardedName_of_named hp]
    rintro heq
    simp [HookedParam.isUnnamed, heq] at hp

end HookedMethod

/-! ### Extracted methods

Parameters of a method that was read have different names, blank ones apart. So for an extracted method
only the names that are made up can collide. -/

/-- The parameters of an extracted method are called by names or not at all, and one that takes any
number of arguments is a slice. -/
theorem Package.WellTyped.param_of_extract {pkg : Package} (hpkg : pkg.WellTyped)
    {interface : String} {method : HookedMethod} (h : pkg.extract interface = .ok method)
    {p : HookedParam} (hp : p ∈ method.params) :
    (p.name = "" ∨ Kind.identifier.Writes p.name) ∧
      (p.variadicTail = true → p.type.isSlice = true) := by
  obtain ⟨-, m, honly, -, rfl⟩ := Package.extract_eq_ok.1 h
  obtain ⟨hmem, htail⟩ := mem_of_hookedParams hp
  exact ⟨(hpkg.onlyMethod honly).proper.params.name hmem, fun h => (htail h).2⟩

/-- **Every argument is passed on once, under a name of its own.** The forwarding method of an
interface of a loaded package has a name for each parameter, which is declared and passed on under
it. If given names are distinct, all names are, unless a parameter is given the name that is made up
for a blank one. -/
theorem forwarding_of_extract {path interface : String} {sources : List SourceText} {pkg : Package}
    {method : HookedMethod} (hpkg : Package.ofSources path sources = .ok pkg)
    (hmethod : pkg.extract interface = .ok method) (hgiven : method.givenNames.Nodup)
    (destination : String) (paths : Paths) :
    ∃ forwarding noted, (method.forwarding destination).run paths = (forwarding, noted) ∧
      (forwarding.names.Nodup ↔ ¬ method.Collides) ∧
      (∀ name ∈ forwarding.names, Kind.identifier.Writes name ∧ name ≠ "_") ∧
      forwarding.names.length = method.params.length ∧
      forwarding.declaration.length = method.params.length ∧
      forwarding.call.length = method.params.length ∧
      ∀ (i : Nat) (p : HookedParam), method.params[i]? = some p → ∃ name declared passed,
        name = (if p.isUnnamed then "arg" ++ toString i else p.name) ∧
        forwarding.names[i]? = some name ∧ forwarding.declaration[i]? = some declared ∧
        forwarding.call[i]? = some passed ∧ p.PassedAs destination name declared passed := by
  obtain ⟨_, files, hloads, rfl⟩ := Package.ofSources_eq_ok.1 hpkg
  have hparam {p : HookedParam} (hp : p ∈ method.params) :=
    hloads.wellTyped.param_of_extract hmethod hp
  obtain ⟨noted, hrun⟩ := method.run_forwarding destination paths
  refine ⟨_, noted, hrun, method.nodup_forwardedNames_iff hgiven, fun name hname => ⟨?_, ?_⟩,
    method.length_forwardedNames, by simp, by simp, fun i p hi => ?_⟩
  · obtain ⟨p, hp, rfl⟩ := List.mem_map.1 hname
    exact writes_forwarded (fun p hp => (hparam hp).1) 0 p hp
  · exact method.ne_blank_of_mem_forwardedNames hname
  · have hforwarded : (forwarded 0 method.params)[i]? =
        some { p with name := p.forwardedName i } := by
      rw [getElem?_forwarded, hi, Nat.zero_add]
      rfl
    refine ⟨p.forwardedName i, _, _, rfl, ?_, ?_, ?_,
      p.passedAs destination (hparam (List.mem_of_getElem? hi)).2 _⟩
    · rw [method.getElem?_forwardedNames, hi]
      rfl
    all_goals
      rw [List.getElem?_map, hforwarded]
      rfl

/-- A package with an interface whose method has a blank parameter between others, the last of which
takes any number of arguments. -/
def logSources : List SourceText := [
  ⟨"log.go", "package log\n" ++
    "type Log interface \x7b Write(level int, _ string, rest ...[]byte) \x7d\n"⟩]

/-- A hook for an interface in another package. -/
def postConfig (source : Location) : Config where
  source
  destination := ⟨"./post", "Posts"⟩

theorem forwarding_of_logSources :
    ∃ pkg method, Package.ofSources "m/log" logSources = .ok pkg ∧
      pkg.extract "Log" = .ok method ∧ method.givenNames = ["level", "rest"] ∧
      method.givenNames.Nodup ∧
      ∃ forwarding noted, (method.forwarding "m/post").run [] = (forwarding, noted) ∧
        (forwarding.names.Nodup ↔ ¬ method.Collides) ∧
        (∀ name ∈ forwarding.names, Kind.identifier.Writes name ∧ name ≠ "_") ∧
        forwarding.names.length = method.params.length ∧
        forwarding.declaration.length = method.params.length ∧
        forwarding.call.length = method.params.length ∧
        ∀ (i : Nat) (p : HookedParam), method.params[i]? = some p → ∃ name declared passed,
          name = (if p.isUnnamed then "arg" ++ toString i else p.name) ∧
          forwarding.names[i]? = some name ∧ forwarding.declaration[i]? = some declared ∧
          forwarding.call[i]? = some passed ∧ p.PassedAs "m/post" name declared passed := by
  obtain ⟨pkg, method, _, hpkg, hmethod, -, hcheck⟩ := exists_plan_of_check "m/log" "Log" logSources
    ⟨"m/post", "post"⟩ (postConfig ⟨"./log", "Log"⟩)
    (fun _ method _ => decide (method.givenNames = ["level", "rest"])) (by decide)
    (by
      simp only [logSources, List.map_cons, List.map_nil, SourceText.chars, String.toList_append]
      repeat rw [String.toList_ofList]
      decide +kernel)
  have hgiven : method.givenNames = ["level", "rest"] := of_decide_eq_true hcheck
  have hdistinct : method.givenNames.Nodup := by
    rw [hgiven]
    decide
  exact ⟨pkg, method, hpkg, hmethod, hgiven, hdistinct,
    forwarding_of_extract hpkg hmethod hdistinct "m/post" []⟩

/-- A package with an interface whose method has a parameter that is called like the blank one
behind it. -/
def boxSources : List SourceText := [
  ⟨"box.go", "package box\ntype Box interface \x7b Drop(arg1 int, _ string) \x7d\n"⟩]

/-- **A name that is made up can be one that is given.** -/
theorem forwarding_of_boxSources :
    ∃ pkg method t, Package.ofSources "m/box" boxSources = .ok pkg ∧
      pkg.extract "Box" = .ok method ∧ method.givenNames.Nodup ∧
      HookFile.ofMethod (postConfig ⟨"./box", "Box"⟩) method ⟨pkg.id, ⟨"m/post", "post"⟩⟩ = .ok t ∧
      t.declarationArgs = ["arg1 int", "arg1 string"] ∧ t.callArgs = ["arg1", "arg1"] ∧
      ¬ ((method.forwarding "m/post").run []).1.names.Nodup := by
  obtain ⟨pkg, method, t, hpkg, hmethod, hplan, hcheck⟩ := exists_plan_of_check "m/box" "Box"
    boxSources ⟨"m/post", "post"⟩ (postConfig ⟨"./box", "Box"⟩)
    (fun _ method t => decide (method.givenNames.Nodup ∧
      t.declarationArgs = ["arg1 int", "arg1 string"] ∧ t.callArgs = ["arg1", "arg1"] ∧
      ¬ ((method.forwarding "m/post").run []).1.names.Nodup)) (by decide) (by
      simp only [boxSources, List.map_cons, List.map_nil, SourceText.chars]
      repeat rw [String.toList_ofList]
      decide +kernel)
  obtain ⟨hgiven, hdeclared, hpassed, hnames⟩ := of_decide_eq_true hcheck
  exact ⟨pkg, method, t, hpkg, hmethod, hgiven, hplan, hdeclared, hpassed, hnames⟩

end Multicast
