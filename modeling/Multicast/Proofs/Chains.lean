import Mathlib.Data.List.Nodup
import Mathlib.Data.List.Perm.Subperm
import Multicast.Proofs.Closed

/-!
# Chains of declarations

A declared type of the package is followed to the type that it is declared as, which may be a
declared type again, and so the types that it stands for make up a *chain*. Each member of a chain
is told by the one before. So a chain either has a last member, which leads no further, or it comes
back to a name that it has come by, and goes round from there for ever.

`Package.underlyingFrom` walks along the chain and keeps the names that it has come by
(`Package.Follows`). It stops at a last member, or at the first name that it meets again, and with
that it has found out which of the two the chain does (`Package.underlying_follows_chain`). It stops
at all since the names that it keeps are different names of the package.

## Why the walk ends, and what it finds

The walk is told which names it has come by, and stops at one of them. While it goes on, all names on the
list are different and all are declared by the package, so that it stops after as many steps as there are
declarations, at the latest. What it returns is known from where it stops: at a type that is not declared
in the package, at a name that is not declared as a type, at one whose type cannot be described, or at a
name that it has met (`Outcome`).

The converse is not proved step by step. A chain ends or comes back at one place only, and the walk has an
outcome at such a place; so an outcome that is assumed is the one that the walk has found
(`underlying_eq_iff`).
-/

namespace Multicast

/-- What a type is, once it is not a declared one: the predeclared interfaces are interfaces, and
all other types are what they are. -/
def GoType.spelledOut : GoType → GoType
  | .basic name =>
    if name = "error" then .interface errorInterface
    else if name = "any" then .interface anyInterface
    else .basic name
  | type => type

namespace Package

variable (pkg : Package)

/-- The type that a declared type of the package is declared as. -/
def declaration? : GoType → Option GoType
  | .named package name =>
    if package = pkg.id then
      match pkg.lookup? name with
      | some ⟨_, .type declared _⟩ => some declared
      | _ => none
    else none
  | _ => none

/-- **The chain of a type**: the type itself, and then what the last member is declared as, as long
as it is declared as a type. -/
def chain (t : GoType) : Nat → Option GoType
  | 0 => some t
  | k + 1 => (chain t k).bind pkg.declaration?

/-- The chain of a type has its last member at this place. -/
def EndsAt (t : GoType) (k : Nat) (last : GoType) : Prop :=
  pkg.chain t k = some last ∧ pkg.declaration? last = none

/-- The chain of a type goes on for ever. -/
def Endless (t : GoType) : Prop :=
  ∀ k, ∃ s, pkg.chain t k = some s

/-- The chain of a type comes by a declared type of the package at this place. -/
def ComesBy (t : GoType) (k : Nat) (n : String) : Prop :=
  pkg.chain t k = some (.named pkg.id n)

/-- **A chain comes back** at this place, by the name of a declared type that it has come by, and
has not come back before. -/
def ComesBack (t : GoType) (k : Nat) (n : String) : Prop :=
  pkg.ComesBy t k n ∧ (∃ i < k, pkg.ComesBy t i n) ∧
    ∀ i j m, i < j → j < k → pkg.ComesBy t i m → ¬ pkg.ComesBy t j m

variable {pkg} {t s last : GoType} {n m : String} {i j k : Nat}

/-! ### Chains that end and chains that come back

A chain is told by its members one after the other, so where a name comes back, everything behind it does.
This excludes that a chain that comes back ends. -/

theorem ComesBy.unique (h : pkg.ComesBy t k n) (h' : pkg.ComesBy t k m) : n = m :=
  (GoType.named.inj (Option.some.inj (h.symm.trans h'))).2

/-- A chain that is at a type again goes on as it did before. -/
theorem chain_add_eq (h : pkg.chain t i = pkg.chain t j) (d : Nat) :
    pkg.chain t (i + d) = pkg.chain t (j + d) := by
  induction d with
  | zero => exact h
  | succ d ih => exact congrArg (Option.bind · pkg.declaration?) ih

/-- Behind the end of a chain there is nothing. -/
theorem chain_eq_none_of_le (h : pkg.chain t k = none) (hle : k ≤ j) : pkg.chain t j = none := by
  obtain ⟨d, rfl⟩ := Nat.exists_eq_add_of_le hle
  clear hle
  induction d with
  | zero => exact h
  | succ d ih => exact congrArg (Option.bind · pkg.declaration?) ih

theorem EndsAt.chain_succ (h : pkg.EndsAt t k last) : pkg.chain t (k + 1) = none := by
  rw [chain, h.1, Option.bind_some, h.2]

theorem EndsAt.not_endless (h : pkg.EndsAt t k last) : ¬ pkg.Endless t := by
  intro hendless
  obtain ⟨s, hs⟩ := hendless (k + 1)
  cases h.chain_succ.symm.trans hs

/-- A chain has one end. -/
theorem EndsAt.unique {last' : GoType} (h : pkg.EndsAt t k last) (h' : pkg.EndsAt t j last') :
    last = last' := by
  have hnone {k j : Nat} {last last' : GoType} (h : pkg.EndsAt t k last)
      (h' : pkg.EndsAt t j last') : j ≤ k := by
    by_contra hlt
    cases (chain_eq_none_of_le h.chain_succ (by omega)).symm.trans h'.1
  obtain rfl := Nat.le_antisymm (hnone h' h) (hnone h h')
  exact Option.some.inj (h.1.symm.trans h'.1)

/-- **A chain that comes back goes on for ever**: it repeats itself from there. -/
theorem ComesBack.endless (h : pkg.ComesBack t k n) : pkg.Endless t := by
  obtain ⟨hk, ⟨i, hlt, hi⟩, -⟩ := h
  intro j
  induction j using Nat.strongRecOn with
  | ind j ih =>
    rcases Nat.lt_or_ge j k with hj | hj
    · refine Option.ne_none_iff_exists'.1 fun hnone => ?_
      cases (chain_eq_none_of_le hnone (Nat.le_of_lt hj)).symm.trans hk
    · -- behind the place where it comes back, a chain is what it was one round before
      obtain ⟨d, rfl⟩ := Nat.exists_eq_add_of_le hj
      rw [chain_add_eq (hk.trans hi.symm)]
      exact ih (i + d) (by omega)

/-- A chain comes back by one name first. -/
theorem ComesBack.unique (h : pkg.ComesBack t k n) (h' : pkg.ComesBack t j m) : n = m := by
  obtain ⟨hk, ⟨i, hi, hn⟩, hfirst⟩ := h
  obtain ⟨hj, ⟨i', hi', hm⟩, hfirst'⟩ := h'
  rcases Nat.lt_trichotomy k j with hlt | rfl | hlt
  · exact absurd hk (hfirst' i k n hi hlt hn)
  · exact hk.unique hj
  · exact absurd hj (hfirst i' j m hi' hlt hm)

/-! ### The walk along a chain -/

/-- **The walk along a chain** has come to a type, by way of these names, the last one first. -/
inductive Follows (pkg : Package) (t : GoType) : List String → GoType → Prop
  | start : Follows pkg t [] t
  | step {seen : List String} {n : String} {declared : GoType}
    (h : Follows pkg t seen (.named pkg.id n)) (hnew : n ∉ seen)
    (hdeclared : pkg.declaration? (.named pkg.id n) = some declared) :
    Follows pkg t (n :: seen) declared

namespace Follows

variable {seen : List String}

theorem chain_eq (h : pkg.Follows t seen s) : pkg.chain t seen.length = some s := by
  induction h with
  | start => rfl
  | step _ _ hdeclared ih => rw [List.length_cons, chain, ih, Option.bind_some, hdeclared]

/-- The names that are kept are those that the chain has come by. -/
theorem mem_iff (h : pkg.Follows t seen s) :
    m ∈ seen ↔ ∃ i < seen.length, pkg.ComesBy t i m := by
  induction h with
  | start => simp
  | @step seen n declared h _ _ ih =>
    rw [List.mem_cons, ih, List.length_cons]
    constructor
    · rintro (rfl | ⟨i, hi, hm⟩)
      · exact ⟨seen.length, Nat.lt_succ_self _, h.chain_eq⟩
      · exact ⟨i, Nat.lt_succ_of_lt hi, hm⟩
    · rintro ⟨i, hi, hm⟩
      rcases Nat.lt_succ_iff_lt_or_eq.1 hi with hi | rfl
      · exact .inr ⟨i, hi, hm⟩
      · exact .inl (hm.unique h.chain_eq)

/-- The chain has not come back yet. -/
theorem distinct (h : pkg.Follows t seen s) (hlt : i < j) (hj : j < seen.length)
    (hi : pkg.ComesBy t i m) : ¬ pkg.ComesBy t j m := by
  induction h with
  | start => cases hj
  | step h hnew _ ih =>
    rcases Nat.lt_succ_iff_lt_or_eq.1 hj with hj | rfl
    · exact ih hj
    · intro hm
      obtain rfl := hm.unique h.chain_eq
      exact hnew (h.mem_iff.2 ⟨i, hlt, hi⟩)

/-- The walk takes no more steps than the package has objects. -/
theorem length_le (h : pkg.Follows t seen s) : seen.length ≤ pkg.size := by
  have hnames : seen.Nodup ∧ ∀ m ∈ seen, m ∈ pkg.names := by
    induction h with
    | start => simp
    | @step seen n declared _ hnew hdeclared ih =>
      refine ⟨List.nodup_cons.2 ⟨hnew, ih.1⟩, List.forall_mem_cons.2 ⟨?_, ih.2⟩⟩
      rw [declaration?, if_pos rfl] at hdeclared
      split at hdeclared
      next hlookup => exact mem_names_of_lookup? hlookup
      next => cases hdeclared
  have hle := (hnames.1.subperm hnames.2).length_le
  rwa [names, List.length_map] at hle

theorem comesBack (h : pkg.Follows t seen (.named pkg.id n)) (hmem : n ∈ seen) :
    pkg.ComesBack t seen.length n :=
  ⟨h.chain_eq, h.mem_iff.1 hmem, fun _ _ _ hlt hj hi => h.distinct hlt hj hi⟩

theorem endsAt (h : pkg.Follows t seen s) (hlast : pkg.declaration? s = none) :
    pkg.EndsAt t seen.length s :=
  ⟨h.chain_eq, hlast⟩

end Follows

/-! ### What comes of a chain

Four things can come of the last member of a chain, and each has its condition on that member. The
conditions exclude each other, which is what turns the outcome of the walk into an equivalence. -/

/-- **What comes of the last member of a chain.** -/
inductive Verdict (pkg : Package) : GoType → Except ResolveError GoType → Prop
  | found {last : GoType} (hlast : ∀ package n, last ≠ .named package n) :
    Verdict pkg last (.ok last.spelledOut)
  | unsupported {n reason : String} (hlookup : pkg.lookup? n = some ⟨n, .unsupported reason⟩) :
    Verdict pkg (.named pkg.id n) (.error (.unsupported n reason))
  | notAType {n : String} (hlookup : ∀ object ∈ pkg.lookup? n, object.kind.isType = false) :
    Verdict pkg (.named pkg.id n) (.error (.unresolved n))
  | foreign {package : PackageId} {n : String} (hforeign : package ≠ pkg.id) :
    Verdict pkg (.named package n) (.error (.unresolved (GoType.named package n).canonical))

theorem Verdict.of_eq {u : GoType} (hu : last.spelledOut = u)
    (hlast : ∀ package n, last ≠ .named package n) : pkg.Verdict last (.ok u) :=
  hu ▸ .found hlast

/-- One thing comes of a last member. -/
theorem Verdict.unique {r r' : Except ResolveError GoType} (h : pkg.Verdict last r)
    (h' : pkg.Verdict last r') : r = r' := by
  cases h with
  | found hlast =>
    cases h' with
    | found => rfl
    | unsupported | notAType | foreign => exact absurd rfl (hlast _ _)
  | unsupported hlookup =>
    cases h' with
    | found hlast => exact absurd rfl (hlast _ _)
    | unsupported hlookup' =>
      cases hlookup.symm.trans hlookup'
      rfl
    | notAType hlookup' => cases hlookup' _ hlookup
    | foreign hforeign => exact absurd rfl hforeign
  | notAType hlookup =>
    cases h' with
    | found hlast => exact absurd rfl (hlast _ _)
    | unsupported hlookup' => cases hlookup _ hlookup'
    | notAType => rfl
    | foreign hforeign => exact absurd rfl hforeign
  | foreign hforeign =>
    cases h' with
    | found hlast => exact absurd rfl (hlast _ _)
    | unsupported | notAType => exact absurd rfl hforeign
    | foreign => rfl

/-- **What comes of the chain of a type** that ends, or comes back, at this place. -/
inductive Outcome (pkg : Package) (t : GoType) (k : Nat) : Except ResolveError GoType → Prop
  | ended {last : GoType} {r : Except ResolveError GoType} (h : pkg.EndsAt t k last)
    (hlast : pkg.Verdict last r) : Outcome pkg t k r
  | recursive {n : String} (h : pkg.ComesBack t k n) : Outcome pkg t k (.error (.recursive n))

/-- One thing comes of a chain. -/
theorem Outcome.unique {r r' : Except ResolveError GoType} (h : pkg.Outcome t k r)
    (h' : pkg.Outcome t j r') : r = r' := by
  cases h with
  | ended h hlast =>
    cases h' with
    | ended h' hlast' =>
      obtain rfl := h.unique h'
      exact hlast.unique hlast'
    | recursive h' => exact absurd h'.endless h.not_endless
  | recursive h =>
    cases h' with
    | ended h' => exact absurd h.endless h'.not_endless
    | recursive h' => rw [h.unique h']

theorem Outcome.stops {r : Except ResolveError GoType} (h : pkg.Outcome t k r) :
    (∃ last, pkg.EndsAt t k last) ∨ ∃ n, pkg.ComesBack t k n := by
  rcases h with ⟨h, -⟩ | h
  · exact .inl ⟨_, h⟩
  · exact .inr ⟨_, h⟩

/-- A declared type of the package leads no further if its name does not stand for a type that can
be described. -/
theorem declaration?_eq_none
    (h : ∀ declared isAlias, pkg.lookup? n ≠ some ⟨n, .type declared isAlias⟩) :
    pkg.declaration? (.named pkg.id n) = none := by
  rw [declaration?, if_pos rfl]
  split
  next other declared isAlias hlookup =>
    obtain rfl : other = n := by simpa using List.find?_some hlookup
    exact absurd hlookup (h declared isAlias)
  next => rfl

/-- **The walk finds out what comes of a chain.** -/
theorem outcome_of_follows {seen : List String} (h : pkg.Follows t seen s) :
    ∃ k ≤ pkg.size, pkg.Outcome t k (pkg.underlyingFrom seen s) := by
  fun_induction pkg.underlyingFrom seen s with
  | case1 seen n hmem => exact ⟨_, h.length_le, .recursive (h.comesBack hmem)⟩
  | case2 seen n hnew other declared isAlias hlookup ih =>
    refine ih (h.step hnew ?_)
    rw [declaration?, if_pos rfl, hlookup]
  | case3 seen n _ other reason hlookup =>
    obtain rfl : other = n := by simpa using List.find?_some hlookup
    refine ⟨_, h.length_le, .ended (h.endsAt (declaration?_eq_none ?_)) (.unsupported hlookup)⟩
    simp [hlookup]
  | case4 seen n _ hnotype hnounsupported =>
    refine ⟨_, h.length_le, .ended (h.endsAt (declaration?_eq_none ?_)) (.notAType ?_)⟩
    · exact fun declared isAlias => hnotype n declared isAlias
    · rintro ⟨other, kind⟩ hlookup
      cases kind with
      | type declared isAlias => exact (hnotype other declared isAlias hlookup).elim
      | unsupported reason => exact (hnounsupported other reason hlookup).elim
      | func | var | const => rfl
  | case5 seen package n hforeign =>
    exact ⟨_, h.length_le, .ended (h.endsAt (if_neg hforeign)) (.foreign hforeign)⟩
  | case6 seen => exact ⟨_, h.length_le, .ended (h.endsAt rfl) (.of_eq rfl (by simp))⟩
  | case7 seen => exact ⟨_, h.length_le, .ended (h.endsAt rfl) (.of_eq rfl (by simp))⟩
  | case8 seen n herror hany =>
    have hself : (GoType.basic n).spelledOut = .basic n := by
      rw [GoType.spelledOut, if_neg herror, if_neg hany]
    exact ⟨_, h.length_le, .ended (h.endsAt rfl) (.of_eq hself (by simp))⟩
  | case9 seen type hnamed hbasic =>
    have hself : type.spelledOut = type := by
      cases type with
      | basic n => exact (hbasic n rfl).elim
      | _ => rfl
    have hlast : pkg.declaration? type = none := by
      cases type with
      | named package n => exact (hnamed package n rfl).elim
      | _ => rfl
    exact ⟨_, h.length_le, .ended (h.endsAt hlast) (.of_eq hself fun package n => hnamed package n)⟩

/-- **What comes of a chain** is what the type is followed to. -/
theorem underlying_eq_iff {r : Except ResolveError GoType} :
    pkg.underlying t = r ↔ ∃ k, pkg.Outcome t k r := by
  have hstart : pkg.Follows t [] t := .start
  obtain ⟨k, -, houtcome⟩ := outcome_of_follows hstart
  constructor
  · rintro rfl
    exact ⟨k, houtcome⟩
  · rintro ⟨j, h⟩
    exact houtcome.unique h

/-- What a type is followed to is not followed any further. -/
theorem underlying_spelledOut (hlast : ∀ package n, last ≠ .named package n) :
    pkg.underlying last.spelledOut = .ok last.spelledOut := by
  have hstays : last.spelledOut.spelledOut = last.spelledOut ∧
      ∀ package n, last.spelledOut ≠ .named package n := by
    cases last with
    | basic n =>
      by_cases herror : n = "error"
      · simp [GoType.spelledOut, herror]
      by_cases hany : n = "any"
      · simp [GoType.spelledOut, hany]
      simp [GoType.spelledOut, herror, hany]
    | _ => exact ⟨rfl, hlast⟩
  have hend : pkg.EndsAt last.spelledOut 0 last.spelledOut := by
    refine ⟨rfl, ?_⟩
    rw [declaration?]
    exact hstays.2
  have hfound := underlying_eq_iff.2 ⟨0, .ended hend (.found hstays.2)⟩
  rwa [hstays.1] at hfound

/-- A type is followed to what the last member of its chain is, if this is no declared type. -/
theorem underlying_eq_ok_iff {t u : GoType} : pkg.underlying t = .ok u ↔ ∃ k last, pkg.EndsAt t k last ∧
    (∀ package n, last ≠ .named package n) ∧ u = last.spelledOut := by
  rw [underlying_eq_iff]
  constructor
  · rintro ⟨k, ⟨h, hlast⟩⟩
    cases hlast with
    | found hlast => exact ⟨k, _, h, hlast, rfl⟩
  · rintro ⟨k, last, h, hlast, rfl⟩
    exact ⟨k, .ended h (.found hlast)⟩

/-- A name is found to be recursive just if the chain comes back by it. -/
theorem underlying_recursive_iff {t : GoType} {n : String} :
    pkg.underlying t = .error (.recursive n) ↔ ∃ k, pkg.ComesBack t k n := by
  rw [underlying_eq_iff]
  constructor
  · rintro ⟨k, ⟨-, ⟨⟩⟩ | h⟩
    exact ⟨k, h⟩
  · rintro ⟨k, h⟩
    exact ⟨k, .recursive h⟩

/-- Some name is found to be recursive just if the chain goes on for ever. -/
theorem exists_recursive_iff {t : GoType} :
    (∃ n, pkg.underlying t = .error (.recursive n)) ↔ pkg.Endless t := by
  constructor
  · rintro ⟨n, h⟩
    obtain ⟨k, hback⟩ := underlying_recursive_iff.1 h
    exact hback.endless
  · intro hendless
    -- the walk stops, and not at a last member, since there is none
    have hstart : pkg.Follows t [] t := .start
    obtain ⟨k, -, houtcome⟩ := outcome_of_follows hstart
    rcases houtcome.stops with ⟨last, h⟩ | ⟨n, h⟩
    · exact absurd hendless h.not_endless
    · exact ⟨n, underlying_recursive_iff.2 ⟨k, h⟩⟩

/-- A name cannot be described just if the chain ends with it, and its declaration says so. -/
theorem underlying_unsupported_iff {t : GoType} {n reason : String} :
    pkg.underlying t = .error (.unsupported n reason) ↔
      ∃ k, pkg.EndsAt t k (.named pkg.id n) ∧ pkg.lookup? n = some ⟨n, .unsupported reason⟩ := by
  rw [underlying_eq_iff]
  constructor
  · rintro ⟨k, ⟨h, hlast⟩⟩
    cases hlast with
    | unsupported hlookup => exact ⟨k, h, hlookup⟩
  · rintro ⟨k, h, hlookup⟩
    exact ⟨k, .ended h (.unsupported hlookup)⟩

/-- A type is not found just if the chain ends with a name that is not declared as a type, or with a declared
type of another package. -/
theorem underlying_unresolved_iff {t : GoType} {text : String} :
    pkg.underlying t = .error (.unresolved text) ↔
      (∃ k, pkg.EndsAt t k (.named pkg.id text) ∧
        ∀ object ∈ pkg.lookup? text, object.kind.isType = false) ∨
      ∃ k package n, pkg.EndsAt t k (.named package n) ∧ package ≠ pkg.id ∧
        text = (GoType.named package n).canonical := by
  rw [underlying_eq_iff]
  constructor
  · rintro ⟨k, ⟨h, hlast⟩⟩
    cases hlast with
    | notAType hlookup => exact .inl ⟨k, h, hlookup⟩
    | foreign hforeign => exact .inr ⟨k, _, _, h, hforeign, rfl⟩
  · rintro (⟨k, h, hlookup⟩ | ⟨k, package, n, h, hforeign, rfl⟩)
    · exact ⟨k, .ended h (.notAType hlookup)⟩
    · exact ⟨k, .ended h (.foreign hforeign)⟩

/-- What has been followed to its end is followed no further. -/
theorem underlying_idem (pkg : Package) (t : GoType) :
    (pkg.underlying t >>= pkg.underlying) = pkg.underlying t := by
  cases hresult : pkg.underlying t with
  | error e => rfl
  | ok u =>
    obtain ⟨_, last, -, hlast, rfl⟩ := underlying_eq_ok_iff.1 hresult
    exact underlying_spelledOut hlast

/-- **Declared types are followed along their chains.** -/
theorem underlying_follows_chain (pkg : Package) (t : GoType) :
    (∀ u, pkg.underlying t = .ok u ↔ ∃ k last, pkg.EndsAt t k last ∧
      (∀ package n, last ≠ .named package n) ∧ u = last.spelledOut) ∧
    ((∃ n, pkg.underlying t = .error (.recursive n)) ↔ pkg.Endless t) ∧
    (∀ n, pkg.underlying t = .error (.recursive n) ↔ ∃ k, pkg.ComesBack t k n) ∧
    (∀ n reason, pkg.underlying t = .error (.unsupported n reason) ↔
      ∃ k, pkg.EndsAt t k (.named pkg.id n) ∧ pkg.lookup? n = some ⟨n, .unsupported reason⟩) ∧
    (∀ text, pkg.underlying t = .error (.unresolved text) ↔
      (∃ k, pkg.EndsAt t k (.named pkg.id text) ∧
        ∀ object ∈ pkg.lookup? text, object.kind.isType = false) ∨
      ∃ k package n, pkg.EndsAt t k (.named package n) ∧ package ≠ pkg.id ∧
        text = (GoType.named package n).canonical) ∧
    (∃ k ≤ pkg.size, (∃ last, pkg.EndsAt t k last) ∨ ∃ n, pkg.ComesBack t k n) ∧
    (pkg.underlying t >>= pkg.underlying) = pkg.underlying t := by
  have hstart : pkg.Follows t [] t := .start
  obtain ⟨k, hk, houtcome⟩ := outcome_of_follows hstart
  exact ⟨fun u => underlying_eq_ok_iff, exists_recursive_iff, fun n => underlying_recursive_iff,
    fun n reason => underlying_unsupported_iff, fun text => underlying_unresolved_iff,
    ⟨k, hk, houtcome.stops⟩, underlying_idem pkg t⟩

end Package

end Multicast
