import Multicast.Package.Basic
import Multicast.Types.Rendering

/-!
# Underlying types

A declared type stands for the type it is declared as, which may be a declared type again. Following
the declarations ends at a type that is not declared, at a name that leads nowhere, or at a name
that was met before. The search ends since each step meets a new name of the package.
-/

namespace Multicast

/-- Why a type could not be followed to what it stands for. -/
inductive ResolveError
  /-- A name that is not declared as a type, or a type of another package. -/
  | unresolved (type : String)
  /-- An embedded type of another package. -/
  | outsideEmbed (type : String)
  /-- An embedded type that is not an interface. -/
  | notAnInterface (type : String)
  /-- A type that could not be described. -/
  | unsupported (name reason : String)
  /-- A type that is declared by means of itself alone. -/
  | recursive (name : String)
  deriving DecidableEq, Repr

/-- The wording of a failed resolution. -/
def ResolveError.message : ResolveError → String
  | unresolved type => "cannot resolve type " ++ type
  | outsideEmbed type =>
    "cannot resolve embedded interface " ++ type ++ ": declared outside the loaded package"
  | notAnInterface type =>
    "cannot resolve type " ++ type ++ " (embedded type is not an interface)"
  | unsupported name reason => "type " ++ name ++ " can't be loaded: " ++ reason
  | recursive name => "invalid recursive type " ++ name

/-- How many of `names` are not among `seen`. -/
def unseen (names seen : List String) : Nat :=
  names.countP (· ∉ seen)

/-- Meeting a new name leaves fewer unseen. -/
theorem unseen_cons_lt {names seen : List String} {name : String} (hmem : name ∈ names)
    (hnew : name ∉ seen) : unseen names (name :: seen) < unseen names seen := by
  have hle : ∀ xs : List String, unseen xs (name :: seen) ≤ unseen xs seen := fun xs =>
    List.countP_mono_left fun x _ => by simp
  induction names with
  | nil => simp at hmem
  | cons x xs ih =>
    by_cases hx : x = name
    · subst hx
      have hxs := hle xs
      simp only [unseen, List.countP_cons] at hxs ⊢
      rw [if_neg (by simp), if_pos (by simpa using hnew)]
      omega
    · have hxs := ih ((List.mem_cons.1 hmem).resolve_left (Ne.symm hx))
      have hiff : (x ∉ name :: seen) ↔ x ∉ seen := by simp [hx]
      simp only [unseen, List.countP_cons, hiff] at hxs ⊢
      omega

namespace Package

/-- What a type stands for, when the declared types in `seen` have led to it. -/
def underlyingFrom (pkg : Package) (seen : List String) : GoType → Except ResolveError GoType
  | .named package name =>
    if package = pkg.id then
      if _hnew : name ∈ seen then .error (.recursive name)
      else match _h : pkg.lookup? name with
        | some ⟨_, .type declared _⟩ => pkg.underlyingFrom (name :: seen) declared
        | some ⟨_, .unsupported reason⟩ => .error (.unsupported name reason)
        | _ => .error (.unresolved name)
    else .error (.unresolved (GoType.named package name).canonical)
  | .basic name =>
    if name = "error" then .ok (.interface GoType.errorInterface)
    else if name = "any" then .ok (.interface GoType.anyInterface)
    else .ok (.basic name)
  | type => .ok type
termination_by unseen pkg.names seen
decreasing_by
  exact unseen_cons_lt (mem_names_of_lookup? _h) _hnew

/-- What a type stands for. -/
def underlying (pkg : Package) (type : GoType) : Except ResolveError GoType :=
  pkg.underlyingFrom [] type

theorem mem_names_of_underlying {pkg : Package} {name : String} {type : GoType}
    (h : pkg.underlying (.named pkg.id name) = .ok type) : name ∈ pkg.names := by
  rw [underlying, underlyingFrom] at h
  cases hlookup : pkg.lookup? name with
  | some object => exact mem_names_of_lookup? hlookup
  | none =>
    simp only [List.not_mem_nil, dite_false, reduceIte] at h
    split at h <;> simp_all

end Package

end Multicast
