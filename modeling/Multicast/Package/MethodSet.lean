import Multicast.Package.Underlying

/-!
# Method sets

An interface has its own methods and those of the interfaces it embeds, and so on. A method that is
reached twice is taken once. An embedding that comes back to an interface on the way to it has no
method set; one that reaches an interface on two separate ways has.
-/

namespace Multicast

/-- Adds the methods whose names are not there yet. -/
def addMethods (found methods : List Method) : List Method :=
  methods.foldl (fun found method =>
    if found.any (·.name == method.name) then found else found ++ [method]) found

theorem sizeOf_tail_lt (type : GoType) (types : List GoType) :
    sizeOf types < sizeOf (type :: types) := by
  rw [List.cons.sizeOf_spec]
  omega

theorem sizeOf_embeds_lt (methods : List Method) (inner embeds : List GoType) :
    sizeOf inner < sizeOf (GoType.interface ⟨methods, inner⟩ :: embeds) := by
  rw [List.cons.sizeOf_spec, GoType.interface.sizeOf_spec, Interface.mk.sizeOf_spec]
  omega

namespace Package

/-- The names that can be embedded. -/
def embeddable (pkg : Package) : List String :=
  "error" :: "any" :: pkg.names

/-- Adds the methods of embedded types. The declared types in `path` lead to the embedding. -/
def embedAll (pkg : Package) (path : List String) (found : List Method) :
    List GoType → Except ResolveError (List Method)
  | [] => .ok found
  | .interface ⟨methods, inner⟩ :: embeds =>
    match pkg.embedAll path (addMethods found methods) inner with
    | .error e => .error e
    | .ok found => pkg.embedAll path found embeds
  | .named package name :: embeds =>
    if _hlocal : package = pkg.id then
      if _hnew : name ∈ path then .error (.recursive name)
      else match _h : pkg.underlying (.named package name) with
        | .error e => .error e
        | .ok (.interface ⟨methods, inner⟩) =>
          match pkg.embedAll (name :: path) (addMethods found methods) inner with
          | .error e => .error e
          | .ok found => pkg.embedAll path found embeds
        | .ok _ => .error (.notAnInterface name)
    else .error (.outsideEmbed (GoType.named package name).canonical)
  | .basic name :: embeds =>
    if _hbasic : name = "error" ∨ name = "any" then
      if _hnew : name ∈ path then .error (.recursive name)
      else match pkg.underlying (.basic name) with
        | .error e => .error e
        | .ok (.interface ⟨methods, inner⟩) =>
          match pkg.embedAll (name :: path) (addMethods found methods) inner with
          | .error e => .error e
          | .ok found => pkg.embedAll path found embeds
        | .ok _ => .error (.notAnInterface name)
    else .error (.notAnInterface name)
  | type :: _ => .error (.notAnInterface type.canonical)
termination_by embeds => (unseen pkg.embeddable path, sizeOf embeds)
decreasing_by
  · exact Prod.Lex.right _ (sizeOf_embeds_lt methods inner embeds)
  · exact Prod.Lex.right _ (sizeOf_tail_lt _ embeds)
  · subst _hlocal
    refine Prod.Lex.left _ _ (unseen_cons_lt ?_ _hnew)
    exact List.mem_cons_of_mem _ (List.mem_cons_of_mem _ (mem_names_of_underlying _h))
  · exact Prod.Lex.right _ (sizeOf_tail_lt _ embeds)
  · refine Prod.Lex.left _ _ (unseen_cons_lt ?_ _hnew)
    rcases _hbasic with rfl | rfl <;> simp [embeddable]
  · exact Prod.Lex.right _ (sizeOf_tail_lt _ embeds)

/-- All methods of an interface: its own, and then those of the interfaces it embeds. -/
def methodSet (pkg : Package) (body : Interface) : Except ResolveError (List Method) :=
  pkg.embedAll [] (addMethods [] body.methods) body.embeds

end Package

end Multicast
