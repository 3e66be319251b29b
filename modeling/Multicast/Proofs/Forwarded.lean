import Multicast.Hook.Forwarding
import Multicast.Proofs.ReadBack
import Multicast.Proofs.Yields

/-!
# The forwarding method in pieces

A qualifier that takes notes writes the same text as one that takes none, and it notes exactly the
packages that are mentioned. `m.Notes a packages` says of a rendering what text comes out of it and
which packages it is asked for, from left to right; it is closed under sequencing, so that
`notes_renderM` follows the definition of `GoType.renderM`. The parameters of the forwarding method
are then known as pieces: they are the parameters of the hooked method under the names that
`HookedParam.forwardedName` gives them (`forwarded`).

## One traversal, told twice

The renderer is written once for any way of asking for qualifiers. With a state that collects packages it
is what synthesis runs, and without effects it is what types are printed with. `Notes` relates the two:
the text is the same, and the state gains the packages in the order of the places where they are asked
for. Since it goes with the constructors, there is one lemma per way of putting texts together, and the
five traversals of the renderer are taken together in one induction.
-/

namespace Multicast

open Source Syntax

/-- What stands in front of the types of a package inside the package at `destination`. -/
def shortIn (destination : String) (package : PackageId) : String :=
  if package.path = destination then "" else package.name

/-! ### Taking notes -/

/-- A text is written, and the paths of these packages are noted one after the other. -/
def Notes {α : Type} (m : StateM Paths α) (a : α) (packages : List PackageId) : Prop :=
  ∀ paths : Paths, m.run paths =
    (a, packages.foldl (fun paths package => Ascending.insert id package.path paths) paths)

namespace Notes

variable {α β : Type} {m : StateM Paths α} {f : α → StateM Paths β} {a : α} {b : β}
  {packages others : List PackageId}

theorem pure (a : α) : Notes (Pure.pure a) a [] :=
  fun _ => rfl

/-- What is asked on the way is asked in order. -/
theorem bind (hm : Notes m a packages) (hf : Notes (f a) b others) :
    Notes (m >>= f) b (packages ++ others) := by
  intro paths
  rw [StateT.run_bind, hm paths, List.foldl_append]
  exact hf _

theorem map (hm : Notes m a packages) (f : α → β) :
    Notes (m >>= fun a => Pure.pure (f a)) (f a) packages := by
  have h := hm.bind (f := fun a => Pure.pure (f a)) (pure (f a))
  rwa [List.append_nil] at h

/-- The qualifier notes every package it is asked for, and answers with its short name. -/
theorem qualifierIn (destination : String) (package : PackageId) :
    Notes (qualifierIn destination package) (shortIn destination package) [package] :=
  fun _ => rfl

end Notes

/-- The packages of the declared types that occur in types. -/
def Lists (packages : List PackageId) (types : List GoType) : Prop :=
  ∀ package, package ∈ packages ↔ ∃ name, Mentions package types name

namespace Lists

variable {packages others : List PackageId} {types more : List GoType}

theorem nil : Lists [] [] := by
  simp [Lists, Mentions]

/-- Packages that are noted for some types, and then for others. -/
theorem append (h : Lists packages types) (h' : Lists others more) :
    Lists (packages ++ others) (types ++ more) := by
  intro package
  rw [List.mem_append, h package, h' package, ← exists_or]
  simp only [mentions_append]

theorem named (package : PackageId) (name : String) :
    Lists [package] [.named package name] := by
  intro other
  rw [List.mem_singleton]
  constructor
  · rintro rfl
    exact ⟨name, mentions_named.2 ⟨rfl, rfl⟩⟩
  · rintro ⟨n, hn⟩
    exact (mentions_named.1 hn).1.symm

/-- A type mentions what its components mention, unless it is a declared one. -/
theorem node {t : GoType} (h : Lists packages t.components)
    (hnamed : ∀ package name, t ≠ .named package name) : Lists packages [t] := by
  intro package
  rw [h package]
  have hself (name : String) : GoType.named package name ≠ t := fun h => hnamed _ _ h.symm
  simp [Mentions, GoType.has_iff (t := t), hself]

end Lists

section

variable (destination : String)

/-- A rendering writes what it writes without notes, and notes the packages in the types. -/
def Renders {α : Type} (m : StateM Paths α) (a : α) (types : List GoType) : Prop :=
  ∃ packages, Notes m a packages ∧ Lists packages types

mutual

/-- **Taking notes does not change what is written**, and what is noted are the packages of the
declared types. -/
theorem notes_renderM (type : GoType) :
    Renders (type.renderM (qualifierIn destination)) (type.render (shortIn destination))
      [type] := by
  match type with
  | .basic name => exact ⟨[], .pure _, .node .nil (by simp)⟩
  | .named package name =>
    exact ⟨[package], (Notes.qualifierIn destination package).map _, .named package name⟩
  | .pointer elem =>
    obtain ⟨packages, hnotes, hlists⟩ := notes_renderM elem
    exact ⟨packages, hnotes.map ("*" ++ ·), hlists.node (by simp)⟩
  | .slice elem =>
    obtain ⟨packages, hnotes, hlists⟩ := notes_renderM elem
    exact ⟨packages, hnotes.map ("[]" ++ ·), hlists.node (by simp)⟩
  | .array length elem =>
    obtain ⟨packages, hnotes, hlists⟩ := notes_renderM elem
    exact ⟨packages, hnotes.map ("[" ++ length ++ "]" ++ ·), hlists.node (by simp)⟩
  | .map key value =>
    obtain ⟨packages, hnotes, hlists⟩ := notes_renderM key
    obtain ⟨packages', hnotes', hlists'⟩ := notes_renderM value
    exact ⟨_, hnotes.bind (hnotes'.map _), (hlists.append hlists').node (by simp)⟩
  | .chan direction elem =>
    obtain ⟨packages, hnotes, hlists⟩ := notes_renderM elem
    exact ⟨packages, hnotes.map _, hlists.node (by simp)⟩
  | .func signature =>
    obtain ⟨packages, hnotes, hlists⟩ := notes_renderSignature signature
    exact ⟨packages, hnotes.map ("func" ++ ·), hlists.node (by simp)⟩
  | .interface ⟨methods, embeds⟩ =>
    obtain ⟨packages, hnotes, hlists⟩ := notes_renderMethods methods
    obtain ⟨packages', hnotes', hlists'⟩ := notes_renderAll embeds
    exact ⟨_, hnotes.bind (hnotes'.map _), (hlists.append hlists').node (by simp)⟩
  | .struct fields =>
    obtain ⟨packages, hnotes, hlists⟩ := notes_renderFields fields
    exact ⟨packages, hnotes.map _, hlists.node (by simp)⟩

/-- Several types are written, and their packages noted, one after the other. -/
theorem notes_renderAll (types : List GoType) :
    Renders (GoType.renderAllM (qualifierIn destination) types)
      (GoType.renderAll (shortIn destination) types) types := by
  match types with
  | [] => exact ⟨[], .pure _, .nil⟩
  | type :: types =>
    obtain ⟨packages, hnotes, hlists⟩ := notes_renderM type
    obtain ⟨packages', hnotes', hlists'⟩ := notes_renderAll types
    exact ⟨_, hnotes.bind (hnotes'.map _), hlists.append hlists'⟩

/-- A signature is written, and the packages in its types are noted. -/
theorem notes_renderSignature (signature : Signature) :
    Renders (signature.renderM (qualifierIn destination))
      (signature.render (shortIn destination)) signature.types := by
  match signature with
  | ⟨params, results, variadic⟩ =>
    obtain ⟨packages, hnotes, hlists⟩ := notes_renderParams variadic params
    obtain ⟨packages', hnotes', hlists'⟩ := notes_renderParams false results
    have htypes : Signature.types ⟨params, results, variadic⟩ =
      params.map Param.type ++ results.map Param.type := List.map_append
    exact ⟨_, hnotes.bind (hnotes'.map _), htypes ▸ hlists.append hlists'⟩

/-- Parameters are written, and the packages in their types are noted. -/
theorem notes_renderParams (variadic : Bool) (params : List Param) :
    Renders (Param.renderAllM (qualifierIn destination) variadic params)
      (Param.renderAll (shortIn destination) variadic params) (params.map Param.type) := by
  match params with
  | [] => exact ⟨[], .pure _, .nil⟩
  | [⟨name, type⟩] =>
    cases type with
    | slice elem =>
      obtain ⟨packages, hnotes, hlists⟩ := notes_renderM elem
      exact ⟨packages, hnotes.map _, hlists.node (by simp)⟩
    | _ =>
      obtain ⟨packages, hnotes, hlists⟩ := notes_renderM _
      have hnil : packages ++ [] = packages := List.append_nil packages
      exact ⟨packages, hnil ▸ hnotes.bind (Notes.pure _), hlists⟩
  | ⟨name, type⟩ :: param :: params =>
    obtain ⟨packages, hnotes, hlists⟩ := notes_renderM type
    obtain ⟨packages', hnotes', hlists'⟩ := notes_renderParams variadic (param :: params)
    refine ⟨packages ++ packages', ?_, hlists.append hlists'⟩
    rw [Param.renderAll_cons]
    cases type <;> exact hnotes.bind (hnotes'.map _)

/-- Methods are written, and the packages in their signatures are noted. -/
theorem notes_renderMethods (methods : List Method) :
    Renders (Method.renderAllM (qualifierIn destination) methods)
      (Method.renderAll (shortIn destination) methods)
      (methods.flatMap (·.signature.types)) := by
  match methods with
  | [] => exact ⟨[], .pure _, .nil⟩
  | ⟨name, signature⟩ :: methods =>
    obtain ⟨packages, hnotes, hlists⟩ := notes_renderSignature signature
    obtain ⟨packages', hnotes', hlists'⟩ := notes_renderMethods methods
    exact ⟨_, hnotes.bind (hnotes'.map _), hlists.append hlists'⟩

/-- Fields are written, and the packages in their types are noted. -/
theorem notes_renderFields (fields : List Field) :
    Renders (Field.renderAllM (qualifierIn destination) fields)
      (Field.renderAll (shortIn destination) fields) (fields.map Field.type) := by
  match fields with
  | [] => exact ⟨[], .pure _, .nil⟩
  | ⟨name, type, tag⟩ :: fields =>
    obtain ⟨packages, hnotes, hlists⟩ := notes_renderM type
    obtain ⟨packages', hnotes', hlists'⟩ := notes_renderFields fields
    exact ⟨_, hnotes.bind (hnotes'.map _), hlists.append hlists'⟩

end

/-! ### Forwarded parameters

A blank parameter gets its name from its place, counted from the first parameter of the method. A variadic
parameter is declared with dots before its type and passed with dots behind its name. -/

/-- Parameters under the names that they have in the forwarding method, when the first of them has
the given place. -/
def forwarded : Nat → List HookedParam → List HookedParam
  | _, [] => []
  | index, p :: ps => { p with name := p.forwardedName index } :: forwarded (index + 1) ps

/-- A parameter as it is passed on. -/
def HookedParam.passed (p : HookedParam) : String :=
  match p.type, p.variadicTail with
  | .slice _, true => p.name ++ "..."
  | _, _ => p.name

/-- A parameter is declared under its new name and passed on, and the packages in its type are
noted. -/
theorem renders_forward (p : HookedParam) {name : String} (hname : name ≠ "") :
    ∃ declared : String, declared.toList =
        textOf (HookedParam.pieces (shortIn destination) { p with name }) ∧
      Renders (p.forward destination name) (declared, HookedParam.passed { p with name })
        [p.type] := by
  obtain ⟨old, type, tail⟩ := p
  have hplain : ∃ packages, Notes (type.renderM (qualifierIn destination) >>= fun text =>
      pure (name ++ " " ++ text, name))
      (name ++ " " ++ type.render (shortIn destination), name) packages ∧
        Lists packages [type] := by
    obtain ⟨packages, hnotes, hlists⟩ := notes_renderM destination type
    exact ⟨packages, hnotes.map fun text => (name ++ " " ++ text, name), hlists⟩
  have htext : (name ++ " " ++ type.render (shortIn destination)).toList =
      textOf (paramPieces name (type.pieces (shortIn destination))) := by
    simp [paramPieces, hname, GoType.toList_render]
  cases tail with
  | false => cases type <;> exact ⟨_, htext, hplain⟩
  | true =>
    cases type with
    | slice elem =>
      -- the three dots stand in place of the brackets of the slice
      obtain ⟨packages, hnotes, hlists⟩ := notes_renderM destination elem
      refine ⟨name ++ " ..." ++ elem.render (shortIn destination), ?_, packages,
        hnotes.map fun text => (name ++ " ..." ++ text, name ++ "..."), hlists.node (by simp)⟩
      simp [HookedParam.pieces, paramPieces, hname, GoType.toList_render]
    | _ => exact ⟨_, htext, hplain⟩

/-- A forwarded parameter has a name, its own or one after its place. -/
theorem forwardedName_ne_empty (p : HookedParam) (index : Nat) : p.forwardedName index ≠ "" := by
  rw [HookedParam.forwardedName]
  split
  next => simp [← String.toList_inj]
  next hnamed =>
    rintro heq
    exact hnamed (by simp [HookedParam.isUnnamed, heq])

/-- **What the forwarding method declares and passes on**, written out in pieces. -/
theorem renders_forwardAll (index : Nat) (ps : List HookedParam) :
    ∃ forwarding : Forwarding,
      forwarding.declaration.map String.toList =
        (forwarded index ps).map (textOf ∘ HookedParam.pieces (shortIn destination)) ∧
      forwarding.call = (forwarded index ps).map HookedParam.passed ∧
      forwarding.names = (forwarded index ps).map HookedParam.name ∧
      Renders (forwardAll destination index ps) forwarding (ps.map HookedParam.type) := by
  induction ps generalizing index with
  | nil => exact ⟨⟨[], [], []⟩, rfl, rfl, rfl, [], .pure _, .nil⟩
  | cons p ps ih =>
    obtain ⟨declared, htext, packages, hnotes, hlists⟩ :=
      renders_forward destination p (forwardedName_ne_empty p index)
    obtain ⟨others, hdeclaration, hcall, hnames, packages', hnotes', hlists'⟩ := ih (index + 1)
    refine ⟨⟨declared :: others.declaration, _ :: others.call, _ :: others.names⟩, ?_, ?_, ?_,
      packages ++ packages', hnotes.bind (hnotes'.map _), hlists.append hlists'⟩
    · simp [forwarded, htext, hdeclaration]
    · simp [forwarded, hcall]
    · simp [forwarded, hnames]

end

/-! ### The forwarding method of a hooked method -/

section

variable {variadic : Bool} {params : List Param}

/-- The parameters of the forwarding method, as parameters of a signature. -/
def forwardedParams (index : Nat) (ps : List HookedParam) : List Param :=
  (forwarded index ps).map fun p => ⟨p.name, p.type⟩

/-- Forwarding changes names only. -/
theorem type_forwarded (index : Nat) (ps : List HookedParam) :
    (forwarded index ps).map HookedParam.type = ps.map HookedParam.type := by
  induction ps generalizing index with
  | nil => rfl
  | cons p ps ih => rw [forwarded, List.map_cons, List.map_cons, ih]

theorem type_mem_of_forwarded {index : Nat} {ps : List HookedParam} {p : HookedParam}
    (h : p ∈ forwarded index ps) : p.type ∈ ps.map HookedParam.type :=
  type_forwarded index ps ▸ List.mem_map_of_mem h

/-- Renaming parameters leaves the tail of a variadic list where it is. -/
theorem hookedParams_forwardedParams (index : Nat) :
    hookedParams variadic (forwardedParams index (hookedParams variadic params)) =
      forwarded index (hookedParams variadic params) := by
  induction params generalizing index with
  | nil => rfl
  | cons p params ih =>
    obtain ⟨name, type⟩ := p
    cases params with
    | nil => rfl
    | cons q params =>
      obtain ⟨name', type'⟩ := q
      have h := ih (index + 1)
      cases params with
      | nil => exact congrArg (_ :: ·) h
      | cons r params => exact congrArg (_ :: ·) h

/-- What begins like no keyword is no keyword. -/
theorem ofText?_eq_none {word name : String}
    (hkeywords : (Keyword.all.all fun k => !word.toList.isPrefixOf k.text.toList) = true)
    (h : word.toList <+: name.toList) : Keyword.ofText? name = none := by
  refine List.find?_eq_none.2 fun k hk hname => ?_
  have hnot := List.all_eq_true.1 hkeywords k hk
  rw [of_decide_eq_true hname, Bool.not_eq_true', ← Bool.not_eq_true,
    List.isPrefixOf_iff_prefix] at hnot
  exact hnot h

/-- A name of small letters and digits with a number behind it is a name, unless it is the beginning
of a keyword. -/
theorem writes_numbered {word : String} (hplain : isPlainName word.toList = true)
    (hkeywords : (Keyword.all.all fun k => !word.toList.isPrefixOf k.text.toList) = true) (n : Nat) :
    Kind.identifier.Writes (word ++ toString n) := by
  have htext : (word ++ toString n).toList = word.toList ++ Nat.toDigits 10 n := by
    simp
  obtain ⟨hhead, hall⟩ := Bool.and_eq_true_iff.1 hplain
  refine writes_of_plain ?_ (ofText?_eq_none hkeywords (htext ▸ List.prefix_append _ _))
  have hdigits : ∀ c ∈ Nat.toDigits 10 n, (c.isLower || c.isDigit) = true := fun c hc => by
    rw [Nat.isDigit_of_mem_toDigits (by decide) (by decide) hc, Bool.or_true]
  rw [htext, isPlainName, List.all_append, hall, List.all_eq_true.2 hdigits]
  cases hword : word.toList with
  | nil => simp [hword] at hhead
  | cons c cs => simpa [hword] using hhead

/-- The names in the forwarding method are names. -/
theorem writes_forwarded {ps : List HookedParam}
    (h : ∀ p ∈ ps, p.name = "" ∨ Kind.identifier.Writes p.name) (index : Nat) :
    ∀ p ∈ forwarded index ps, Kind.identifier.Writes p.name := by
  induction ps generalizing index with
  | nil => simp [forwarded]
  | cons p ps ih =>
    obtain ⟨hp, hps⟩ := List.forall_mem_cons.1 h
    refine List.forall_mem_cons.2 ⟨?_, ih hps (index + 1)⟩
    change Kind.identifier.Writes (p.forwardedName index)
    rw [HookedParam.forwardedName]
    split
    next => exact writes_numbered (by decide) (by decide) index
    next hnamed => exact hp.resolve_left fun heq => hnamed (by simp [HookedParam.isUnnamed, heq])

end

end Multicast
