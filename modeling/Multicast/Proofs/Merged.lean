import Multicast.Proofs.Embedding
import Multicast.Proofs.Extraction

/-!
# What embedding merges

A method that is reached on several ways is meant to be taken once. Embedding tells methods apart by
their names alone, though: of all the methods with one name it keeps the first that it comes by, and
drops the others without a look at their signatures. So the method set of an interface is, name by
name, the first method on the walk along its embedded types (`mem_addMethods_nil_iff`).

Methods *agree* if they have the same name and, whatever their parameters are called at any depth,
the same signature (`Method.Agrees`). If all methods with the same name agree that can be reached
from an interface, it is *consistent*, and just then every one of them is in the method set with its
own signature (`Package.IsMethodSet.keeps_iff`). What is extracted from an interface is the first of
several methods with one name, and the only method just if the interface is consistent. The package
`bell` has an interface that is not.

## From walks to signatures

The method set keeps the first method of each name on the walk. That every method which can be reached is
kept with its signature therefore says that no two methods of one name differ, among all that can be
reached; and this is turned around by looking at the first one of each name.

The comparison leaves the names of parameters out, at any depth, since they say nothing about a type. It
is made by a function on types that drops them (`GoType.anonymous`), so that it can be evaluated.
-/

namespace Multicast

/-! ### Agreement -/

mutual

/-- A type without the names of its parameters. -/
def GoType.anonymous : GoType → GoType
  | .basic name => .basic name
  | .named package name => .named package name
  | .pointer elem => .pointer elem.anonymous
  | .slice elem => .slice elem.anonymous
  | .array length elem => .array length elem.anonymous
  | .map key value => .map key.anonymous value.anonymous
  | .chan direction elem => .chan direction elem.anonymous
  | .func signature => .func signature.anonymous
  | .interface ⟨methods, embeds⟩ =>
    .interface ⟨Method.anonymousAll methods, GoType.anonymousAll embeds⟩
  | .struct fields => .struct (Field.anonymousAll fields)

/-- Types without the names of their parameters. -/
def GoType.anonymousAll : List GoType → List GoType
  | [] => []
  | t :: ts => t.anonymous :: GoType.anonymousAll ts

/-- A signature without the names of its parameters. -/
def Signature.anonymous : Signature → Signature
  | ⟨params, results, variadic⟩ =>
    ⟨Param.anonymousAll params, Param.anonymousAll results, variadic⟩

/-- Parameters without their names. -/
def Param.anonymousAll : List Param → List Param
  | [] => []
  | ⟨_, type⟩ :: params => ⟨"", type.anonymous⟩ :: Param.anonymousAll params

/-- Methods without the names of their parameters. -/
def Method.anonymousAll : List Method → List Method
  | [] => []
  | ⟨name, signature⟩ :: methods => ⟨name, signature.anonymous⟩ :: Method.anonymousAll methods

/-- Fields without the names of parameters. -/
def Field.anonymousAll : List Field → List Field
  | [] => []
  | ⟨name, type, tag⟩ :: fields => ⟨name, type.anonymous, tag⟩ :: Field.anonymousAll fields

end

/-- **Methods agree** if they have the same name and signatures that differ in the names of parameters
at most. -/
def Method.Agrees (m m' : Method) : Prop :=
  m.name = m'.name ∧ m.signature.anonymous = m'.signature.anonymous

namespace Method.Agrees

variable {m m' m'' : Method}

theorem symm (h : m.Agrees m') : m'.Agrees m :=
  ⟨h.1.symm, h.2.symm⟩

theorem trans (h : m.Agrees m') (h' : m'.Agrees m'') : m.Agrees m'' :=
  ⟨h.1.trans h'.1, h.2.trans h'.2⟩

end Method.Agrees

/-! ### The first method of a name

Adding methods keeps those that are there. So what is kept of a list is told by the part in front of each
method. -/

theorem mem_addMethods_iff {found methods : List Method} {m : Method} :
    m ∈ addMethods found methods ↔ m ∈ found ∨ ∃ front behind, methods = front ++ m :: behind ∧
      ∀ m' ∈ found ++ front, m'.name ≠ m.name := by
  induction methods generalizing found with
  | nil =>
    refine ⟨Or.inl, fun h => h.resolve_right ?_⟩
    rintro ⟨front, behind, h, -⟩
    exact List.cons_ne_nil _ _ (List.append_eq_nil_iff.1 h.symm).2
  | cons n methods ih =>
    rw [addMethods_cons, ih]
    by_cases hany : found.any (·.name == n.name) = true
    · -- the name of the head is taken already
      rw [if_pos hany]
      obtain ⟨n', hn', hname⟩ : ∃ n' ∈ found, n'.name = n.name := by simpa using hany
      refine or_congr_right ⟨?_, ?_⟩
      · rintro ⟨front, behind, rfl, hnew⟩
        refine ⟨n :: front, behind, rfl, fun m' hm' => ?_⟩
        rcases List.mem_append.1 hm' with hm' | hm'
        · exact hnew m' (List.mem_append_left _ hm')
        · rcases List.mem_cons.1 hm' with rfl | hm'
          · exact hname ▸ hnew n' (List.mem_append_left _ hn')
          · exact hnew m' (List.mem_append_right _ hm')
      · rintro ⟨front, behind, hmethods, hnew⟩
        cases front with
        | nil =>
          obtain ⟨rfl, rfl⟩ := List.cons.inj hmethods
          exact absurd hname (hnew n' (List.mem_append_left _ hn'))
        | cons first front =>
          obtain ⟨rfl, rfl⟩ := List.cons.inj hmethods
          refine ⟨front, behind, rfl, fun m' hm' => hnew m' ?_⟩
          rcases List.mem_append.1 hm' with hm' | hm'
          · exact List.mem_append_left _ hm'
          · exact List.mem_append_right _ (List.mem_cons_of_mem _ hm')
    · -- the head is the first of its name
      have hhead : ∀ m' ∈ found, m'.name ≠ n.name := by simpa using hany
      rw [if_neg hany, List.mem_append, or_assoc]
      refine or_congr_right ⟨?_, ?_⟩
      · rintro (hm | ⟨front, behind, rfl, hnew⟩)
        · obtain rfl := List.mem_singleton.1 hm
          exact ⟨[], methods, rfl, by simpa using hhead⟩
        · exact ⟨n :: front, behind, rfl, by simpa using hnew⟩
      · rintro ⟨front, behind, hmethods, hnew⟩
        cases front with
        | nil =>
          obtain ⟨rfl, rfl⟩ := List.cons.inj hmethods
          exact .inl (List.mem_singleton_self _)
        | cons first front =>
          obtain ⟨rfl, rfl⟩ := List.cons.inj hmethods
          exact .inr ⟨front, behind, rfl, by simpa using hnew⟩

/-- **Of each name the first method stays.** -/
theorem mem_addMethods_nil_iff {methods : List Method} {m : Method} :
    m ∈ addMethods [] methods ↔ ∃ front behind, methods = front ++ m :: behind ∧
      ∀ m' ∈ front, m'.name ≠ m.name := by
  rw [mem_addMethods_iff]
  exact or_iff_right List.not_mem_nil

namespace Package

variable {pkg : Package} {body : Interface} {methods : List Method}

/-- A method that can be reached from an interface: it is its own, or one of an interface that is
embedded at any depth. -/
def Comprises (pkg : Package) (body : Interface) (m : Method) : Prop :=
  ∃ chain via, pkg.Reaches body chain via ∧ m ∈ via.methods

/-- Methods with the same name agree, of all that can be reached. -/
def Consistent (pkg : Package) (body : Interface) : Prop :=
  ∀ m m', pkg.Comprises body m → pkg.Comprises body m' → m.name = m'.name → m.Agrees m'

/-- What can be reached is what a walk comes by. -/
theorem Visits.comprises_iff {visited : List Method} (h : pkg.Visits [] body.embeds visited)
    {m : Method} : pkg.Comprises body m ↔ m ∈ body.methods ++ visited := by
  constructor
  · rintro ⟨chain, via, hreaches, hm⟩
    obtain ⟨-, inner, -, hsub⟩ := h.of_reaches hreaches
    exact hsub (List.mem_append_left _ hm)
  · intro hm
    rcases List.mem_append.1 hm with hown | hmet
    · exact ⟨[], body, .self, hown⟩
    · exact h.reaches .self (List.Subset.refl _) m hmet

namespace IsMethodSet

/-- A name is in a method set once. -/
theorem eq_of_name_eq (h : pkg.IsMethodSet body methods) {m m' : Method} (hm : m ∈ methods)
    (hm' : m' ∈ methods) (hname : m.name = m'.name) : m = m' :=
  List.inj_on_of_nodup_map h.distinct hm hm' hname

/-- Every method that is kept can be reached. -/
theorem comprises (h : pkg.IsMethodSet body methods) {m : Method} (hm : m ∈ methods) :
    pkg.Comprises body m :=
  h.sound m hm

/-- Every name that can be reached is kept. -/
theorem exists_same_name (h : pkg.IsMethodSet body methods) {m : Method}
    (hm : pkg.Comprises body m) : ∃ m' ∈ methods, m'.name = m.name := by
  obtain ⟨chain, via, hreaches, hmem⟩ := hm
  exact h.complete chain via hreaches m hmem

/-- Methods with one name that are both kept with their signatures agree. -/
theorem agrees_of_kept (h : pkg.IsMethodSet body methods) {m m' : Method}
    (hname : m.name = m'.name) (hm : ∃ n ∈ methods, n.Agrees m) (hm' : ∃ n ∈ methods, n.Agrees m') :
    m.Agrees m' := by
  obtain ⟨n, hn, hagrees⟩ := hm
  obtain ⟨n', hn', hagrees'⟩ := hm'
  obtain rfl : n = n' :=
    h.eq_of_name_eq hn hn' (hagrees.1.trans (hname.trans hagrees'.1.symm))
  exact hagrees.symm.trans hagrees'

/-- **All methods keep their signatures just if the interface is consistent.** -/
theorem keeps_iff (h : pkg.IsMethodSet body methods) :
    (∀ m, pkg.Comprises body m → ∃ m' ∈ methods, m'.Agrees m) ↔ pkg.Consistent body := by
  constructor
  · intro hkept m m' hm hm' hname
    exact h.agrees_of_kept hname (hkept m hm) (hkept m' hm')
  · intro hconsistent m hm
    obtain ⟨m', hm', hname⟩ := h.exists_same_name hm
    exact ⟨m', hm', hconsistent m' m (h.comprises hm') hm hname⟩

/-- Where one method is kept, all that can be reached have its name. -/
theorem name_eq_of_lone {m : Method} (h : pkg.IsMethodSet body [m]) {m' : Method}
    (hm' : pkg.Comprises body m') : m'.name = m.name := by
  obtain ⟨n, hn, hname⟩ := h.exists_same_name hm'
  obtain rfl := List.mem_singleton.1 hn
  exact hname.symm

/-- Where one method is kept, the interface is consistent just if all that can be reached agree with
it. -/
theorem consistent_iff_of_lone {m : Method} (h : pkg.IsMethodSet body [m]) :
    pkg.Consistent body ↔ ∀ m', pkg.Comprises body m' → m.Agrees m' := by
  have hm : pkg.Comprises body m := h.comprises (List.mem_singleton_self _)
  constructor
  · intro hconsistent m' hm'
    exact hconsistent m m' hm hm' (h.name_eq_of_lone hm').symm
  · intro hall m' m'' hm' hm'' _
    exact (hall m' hm').symm.trans (hall m'' hm'')

end IsMethodSet

/-- What is extracted under a name is the only method that its interface keeps. -/
theorem StandsFor.lone_of_extract {name : String} {hooked : HookedMethod}
    (h : pkg.StandsFor name (.interface body)) (hmethods : pkg.methodSet body = .ok methods)
    (hextract : pkg.extract name = .ok hooked) :
    ∃ m, methods = [m] ∧
      hooked = ⟨m.name, hookedParams m.signature.variadic m.signature.params⟩ := by
  have hhas : pkg.HasMethods name methods := ⟨body, h, hmethods⟩
  rw [hhas.extract] at hextract
  obtain ⟨m, honly, hvalue⟩ := except_bind_eq_ok.1 hextract
  cases hvalue
  refine ⟨m, ?_, rfl⟩
  match methods with
  | [] => cases honly
  | [n] =>
    rw [onlyMethod] at honly
    split at honly
    next => rw [Except.ok.inj honly]
    next => cases honly
  | _ :: _ :: _ => cases honly

/-- **Methods are merged by their names**: what a method set keeps of the methods that can be reached
from an interface, and what is lost. -/
structure MergesByName (pkg : Package) (body : Interface) (methods : List Method) : Prop where
  /-- Of each name the first method on the walk is kept, through the own methods of the interface and
  then through what it embeds. -/
  first : ∃ visited, pkg.Visits [] body.embeds visited ∧
    (∀ m, pkg.Comprises body m ↔ m ∈ body.methods ++ visited) ∧
    ∀ m, m ∈ methods ↔ ∃ front behind, body.methods ++ visited = front ++ m :: behind ∧
      ∀ m' ∈ front, m'.name ≠ m.name
  keeps : (∀ m, pkg.Comprises body m → ∃ m' ∈ methods, m'.Agrees m) ↔ pkg.Consistent body
  /-- Of two methods with one name that do not agree, one is lost. -/
  loses : ∀ m m', pkg.Comprises body m → pkg.Comprises body m' → m.name = m'.name →
    ¬m.Agrees m' → ¬((∃ n ∈ methods, n.Agrees m) ∧ ∃ n ∈ methods, n.Agrees m')
  /-- What is extracted is the one method that is kept, and whatever can be reached is this method just
  if the interface is consistent. -/
  extracted : ∀ name hooked, pkg.StandsFor name (.interface body) → pkg.extract name = .ok hooked →
    ∃ m, methods = [m] ∧
      hooked = ⟨m.name, hookedParams m.signature.variadic m.signature.params⟩ ∧
      (∀ m', pkg.Comprises body m' → m'.name = m.name) ∧
      (pkg.Consistent body ↔ ∀ m', pkg.Comprises body m' → m.Agrees m')

/-- **Embedding merges methods by their names**, and keeps the signatures of all methods that can be
reached just where it has no choice. -/
theorem mergesByName_of_methodSet (pkg : Package) (body : Interface) {methods : List Method}
    (h : pkg.methodSet body = .ok methods) : pkg.MergesByName body methods := by
  have hset := isMethodSet_of_methodSet h
  refine ⟨?_, hset.keeps_iff, ?_, ?_⟩
  · obtain ⟨visited, hvisited, hfirst⟩ := hset.order
    refine ⟨visited, hvisited, fun m => hvisited.comprises_iff, fun m => ?_⟩
    rw [hfirst, ← addMethods_nil_left, mem_addMethods_nil_iff]
  · rintro m m' - - hname hdiffer ⟨hm, hm'⟩
    exact hdiffer (hset.agrees_of_kept hname hm hm')
  · intro name hooked hstands hextract
    obtain ⟨m, rfl, hhooked⟩ := hstands.lone_of_extract h hextract
    exact ⟨m, rfl, hhooked, fun m' => hset.name_eq_of_lone, hset.consistent_iff_of_lone⟩

end Package

/-! ### An interface that is not consistent -/

/-- A package with an interface that has a method of its own, and embeds another one of its name. -/
def bellSources : List SourceText := [
  ⟨"bell.go", "package bell\ntype Base interface \x7b Ring(n int) \x7d\n" ++
    "type Bell interface \x7b Ring(s string); Base \x7d\n"⟩]

/-- Whether `Bell` has a method without results, and `Base`, which it embeds, has one of its name that
takes another type. -/
def ringsTwice (pkg : Package) : Bool :=
  match pkg.lookup? "Bell", pkg.lookup? "Base" with
  | some ⟨_, .type (.interface ⟨[⟨n, ⟨[⟨_, .basic t⟩], [], false⟩⟩], [.named id base]⟩) false⟩,
    some ⟨_, .type (.interface ⟨[⟨n', ⟨[⟨_, .basic t'⟩], [], false⟩⟩], []⟩) false⟩ =>
    n == n' && t != t' && id = pkg.id && base == "Base"
  | _, _ => false

section

variable {pkg : Package} {body : Interface} {n : String}

/-- An interface stands for itself. -/
theorem Package.underlying_interface : pkg.underlying (.interface body) = .ok (.interface body) := by
  rw [underlying, underlyingFrom]
  all_goals simp

/-- A name that is declared as an interface stands for it. -/
theorem Package.underlying_of_interface {isAlias : Bool}
    (h : pkg.lookup? n = some ⟨n, .type (.interface body) isAlias⟩) :
    pkg.underlying (.named pkg.id n) = .ok (.interface body) := by
  rw [underlying, underlyingFrom]
  simp only [reduceIte, List.not_mem_nil, dite_false]
  split
  next hlookup =>
    cases h.symm.trans hlookup
    rw [underlyingFrom]
    all_goals simp
  next hlookup => cases h.symm.trans hlookup
  next hother _ => exact absurd h (hother _ _ _)

/-- The method set of an interface that embeds one other, which embeds nothing. -/
theorem Package.methodSet_of_embed {own methods : List Method}
    (h : pkg.underlying (.named pkg.id n) = .ok (.interface ⟨methods, []⟩)) :
    pkg.methodSet ⟨own, [.named pkg.id n]⟩ = .ok (addMethods (addMethods [] own) methods) := by
  rw [methodSet, embedAll]
  simp only [List.not_mem_nil, dite_true, dite_false]
  split
  next hother => cases h.symm.trans hother
  next hother =>
    cases h.symm.trans hother
    simp only [embedAll]
  next hother hok => exact absurd (Except.ok.inj (hok.symm.trans h)) (hother _ _)

/-- What `ringsTwice` finds are two methods of an interface that is extracted from. -/
theorem exists_bell_of_ringsTwice (h : ringsTwice pkg = true) :
    ∃ body m m' hooked, pkg.StandsFor "Bell" (.interface body) ∧
      pkg.methodSet body = .ok [m] ∧ pkg.extract "Bell" = .ok hooked ∧
      pkg.Comprises body m ∧ pkg.Comprises body m' ∧ m.name = m'.name ∧ ¬m.Agrees m' := by
  unfold ringsTwice at h
  split at h
  next bell ring p t id embedded base ring' p' t' hbell hbase =>
    simp only [Bool.and_eq_true, beq_iff_eq, bne_iff_ne, decide_eq_true_eq] at h
    obtain ⟨⟨⟨rfl, hdiffer⟩, rfl⟩, rfl⟩ := h
    obtain rfl : bell = "Bell" := by simpa using List.find?_some hbell
    obtain rfl : base = "Base" := by simpa using List.find?_some hbase
    have hbase := Package.underlying_of_interface hbase
    have hstands : pkg.StandsFor "Bell" _ :=
      ⟨_, ⟨by decide, false, hbell⟩, Package.underlying_interface⟩
    have hmethods : pkg.methodSet ⟨[⟨ring, ⟨[⟨p, .basic t⟩], [], false⟩⟩], _⟩ = .ok _ :=
      Package.methodSet_of_embed hbase
    simp only [addMethods, List.foldl_cons, List.foldl_nil, List.any_nil, List.nil_append,
      List.any_cons, beq_self_eq_true, Bool.true_or, reduceIte, Bool.false_eq_true] at hmethods
    refine ⟨_, _, _, _, hstands, hmethods, Package.HasMethods.extract ⟨_, hstands, hmethods⟩,
      ⟨_, _, .self, List.mem_singleton_self _⟩,
      ⟨_, _, .step .self (List.mem_singleton_self _) (.declared hbase), List.mem_singleton_self _⟩,
      rfl, ?_⟩
    rintro ⟨-, hsame⟩
    simp only [Signature.anonymous, Param.anonymousAll, GoType.anonymous] at hsame
    simp at hsame
    exact hdiffer hsame
  next => cases h

end

theorem exists_package_of_bellSources :
    ∃ pkg, Package.ofSources "m/bell" bellSources = .ok pkg ∧ ringsTwice pkg = true :=
  Package.exists_ofSources_of_any (by
    simp only [bellSources, List.map_cons, List.map_nil, SourceText.chars, String.toList_append]
    repeat rw [String.toList_ofList]
    decide +kernel)

/-- What is merged in `Bell`. -/
theorem mergesByName_bell :
    ∃ pkg body methods, Package.ofSources "m/bell" bellSources = .ok pkg ∧
      pkg.StandsFor "Bell" (.interface body) ∧ pkg.methodSet body = .ok methods ∧
      pkg.MergesByName body methods := by
  obtain ⟨pkg, hpkg, hrings⟩ := exists_package_of_bellSources
  obtain ⟨body, m, -, -, hstands, hmethods, -⟩ := exists_bell_of_ringsTwice hrings
  exact ⟨pkg, body, [m], hpkg, hstands, hmethods, Package.mergesByName_of_methodSet pkg body hmethods⟩

/-- **A method of another signature can be lost**: `Bell` is hooked as an interface with one method,
though two can be reached that do not agree. -/
theorem not_keeps_bell :
    ∃ pkg body methods hooked, Package.ofSources "m/bell" bellSources = .ok pkg ∧
      pkg.StandsFor "Bell" (.interface body) ∧ pkg.methodSet body = .ok methods ∧
      pkg.extract "Bell" = .ok hooked ∧ ¬pkg.Consistent body ∧
      ¬∀ m, pkg.Comprises body m → ∃ m' ∈ methods, m'.Agrees m := by
  obtain ⟨pkg, hpkg, hrings⟩ := exists_package_of_bellSources
  obtain ⟨body, m, m', hooked, hstands, hmethods, hextract, hm, hm', hname, hdiffer⟩ :=
    exists_bell_of_ringsTwice hrings
  have hnot : ¬pkg.Consistent body := fun h => hdiffer (h m m' hm hm' hname)
  refine ⟨pkg, body, [m], hooked, hpkg, hstands, hmethods, hextract, hnot, fun h => hnot ?_⟩
  exact (Package.isMethodSet_of_methodSet hmethods).keeps_iff.1 h

end Multicast
