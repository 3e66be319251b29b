import Multicast.Proofs.Parts
import Multicast.Types.Rendering

/-!
# Writing and moving go the same way through a type

`GoType.renderM` and `GoType.relocateM` go through a type on their own, and each asks something at every
declared type: what stands in front of the name, or which package is to own it. Here they are shown to ask
about the same packages in the same order, which are those of `GoType.declared`.

An `Account` is a way of speaking about computations that knows what comes of one behind another. In every
account, moving asks about the declared types of a type one after the other and makes of it a type that
differs from it in packages only (`Account.relocateM`). The package of a declared type shows in a text only
through what stands in front of the name, so the moved type is written as the type itself is, if the
qualifier is told of the move (`GoType.Moved.renderM_eq`).
-/

namespace Multicast

/-! ### The declared types in a type -/

/-- The declared types in a type from left to right, each by its package and its name. -/
def GoType.declared : GoType → List (PackageId × String)
  | .named package name => [(package, name)]
  | t => t.components.attach.flatMap fun c => c.1.declared
termination_by t => sizeOf t
decreasing_by exact sizeOf_component_lt c.2

/-- The declared types in several types. -/
def declaredIn (types : List GoType) : List (PackageId × String) :=
  types.flatMap GoType.declared

@[simp] theorem GoType.declared_named (package : PackageId) (name : String) :
    (named package name).declared = [(package, name)] := by
  rw [declared]

/-- The declared types in a type that is no declared type are those in its components. -/
theorem GoType.declared_eq {t : GoType} (h : ∀ package name, t ≠ .named package name) :
    t.declared = declaredIn t.components := by
  rw [declared, declaredIn]
  · simp
  · exact h

/-- The declared types in one type. -/
theorem declaredIn_singleton (t : GoType) : declaredIn [t] = t.declared :=
  List.flatMap_singleton ..

/-- The declared types in a type that is made of one other type. -/
theorem GoType.declared_eq_elem {t elem : GoType} (hcomponents : t.components = [elem])
    (h : ∀ package name, t ≠ .named package name) : t.declared = elem.declared := by
  rw [declared_eq h, hcomponents, declaredIn_singleton]

/-- Types are gone through one after the other. -/
theorem declaredIn_append (types others : List GoType) :
    declaredIn (types ++ others) = declaredIn types ++ declaredIn others :=
  List.flatMap_append

/-- The key of a map is gone through before its values. -/
theorem GoType.declared_map (key value : GoType) :
    (map key value).declared = key.declared ++ value.declared := by
  rw [declared_eq (by simp), ← declaredIn_singleton key, ← declaredIn_singleton value, ← declaredIn_append]
  rfl

/-- The methods of an interface are gone through before its embedded types. -/
theorem GoType.declared_interface (methods : List Method) (embeds : List GoType) :
    (interface ⟨methods, embeds⟩).declared =
      declaredIn (methods.flatMap (·.signature.types)) ++ declaredIn embeds := by
  rw [declared_eq (by simp), ← declaredIn_append]
  rfl

/-! ### Accounts -/

/-- **An account of computations**: what they ask about, and what is known of what they return. -/
structure Account (m : Type → Type) [Monad m] where
  holds {α : Type} : m α → List (PackageId × String) → (α → Prop) → Prop
  pure {α : Type} {a : α} {post : α → Prop} (h : post a) : holds (Pure.pure a) [] post
  bind {α β : Type} {x : m α} {f : α → m β} {asked others : List (PackageId × String)}
    {post : α → Prop} {post' : β → Prop} (hx : holds x asked post)
    (hf : ∀ a, post a → holds (f a) others post') : holds (x >>= f) (asked ++ others) post'

namespace Account

variable {m : Type → Type} [Monad m] {A : Account m} {α β : Type} {x : m α} {f : α → β}
  {asked : List (PackageId × String)} {post : α → Prop} {post' : β → Prop}

/-- What is made of what a computation returns. -/
theorem map (hx : A.holds x asked post) (hf : ∀ a, post a → post' (f a)) :
    A.holds (x >>= fun a => Pure.pure (f a)) asked post' := by
  have h := A.bind hx fun a ha => A.pure (hf a ha)
  rwa [List.append_nil] at h

/-- What computations without effects return. -/
def plain : Account Id where
  holds x _ post := post x.run
  pure h := h
  bind hx hf := hf _ hx

/-- What computations with a state return, whatever the state is. -/
def stateful (σ : Type) : Account (StateM σ) where
  holds x _ post := ∀ s, post (x.run s).1
  pure h _ := h
  bind hx hf s := hf _ (hx s) _

end Account

/-! ### Moved types -/

section

variable (R : PackageId → String → PackageId → Prop)

mutual

/-- **A type that differs from another in packages only**, and how they differ at each declared type. -/
inductive GoType.Moved : GoType → GoType → Prop
  | basic (name : String) : GoType.Moved (.basic name) (.basic name)
  | named {before after : PackageId} {name : String} (h : R before name after) :
    GoType.Moved (.named before name) (.named after name)
  | pointer {t u : GoType} (h : GoType.Moved t u) : GoType.Moved (.pointer t) (.pointer u)
  | slice {t u : GoType} (h : GoType.Moved t u) : GoType.Moved (.slice t) (.slice u)
  | array (length : String) {t u : GoType} (h : GoType.Moved t u) :
    GoType.Moved (.array length t) (.array length u)
  | map {k l t u : GoType} (hkey : GoType.Moved k l) (h : GoType.Moved t u) :
    GoType.Moved (.map k t) (.map l u)
  | chan (direction : Direction) {t u : GoType} (h : GoType.Moved t u) :
    GoType.Moved (.chan direction t) (.chan direction u)
  | func {s s' : Signature} (h : Signature.Moved s s') : GoType.Moved (.func s) (.func s')
  | interface {ms ms' : List Method} {ts us : List GoType} (hmethods : Method.AllMoved ms ms')
    (hembeds : GoType.AllMoved ts us) : GoType.Moved (.interface ⟨ms, ts⟩) (.interface ⟨ms', us⟩)
  | struct {fs fs' : List Field} (h : Field.AllMoved fs fs') : GoType.Moved (.struct fs) (.struct fs')

/-- Types that differ in packages only, one by one. -/
inductive GoType.AllMoved : List GoType → List GoType → Prop
  | nil : GoType.AllMoved [] []
  | cons {t u : GoType} {ts us : List GoType} (h : GoType.Moved t u) (hmore : GoType.AllMoved ts us) :
    GoType.AllMoved (t :: ts) (u :: us)

/-- Signatures that differ in packages only. -/
inductive Signature.Moved : Signature → Signature → Prop
  | mk {ps ps' rs rs' : List Param} {variadic : Bool} (hparams : Param.AllMoved ps ps')
    (hresults : Param.AllMoved rs rs') : Signature.Moved ⟨ps, rs, variadic⟩ ⟨ps', rs', variadic⟩

/-- Parameters that differ in packages only, one by one. -/
inductive Param.AllMoved : List Param → List Param → Prop
  | nil : Param.AllMoved [] []
  | cons {name : String} {t u : GoType} {ps ps' : List Param} (h : GoType.Moved t u)
    (hmore : Param.AllMoved ps ps') : Param.AllMoved (⟨name, t⟩ :: ps) (⟨name, u⟩ :: ps')

/-- Methods that differ in packages only, one by one. -/
inductive Method.AllMoved : List Method → List Method → Prop
  | nil : Method.AllMoved [] []
  | cons {name : String} {s s' : Signature} {ms ms' : List Method} (h : Signature.Moved s s')
    (hmore : Method.AllMoved ms ms') : Method.AllMoved (⟨name, s⟩ :: ms) (⟨name, s'⟩ :: ms')

/-- Fields that differ in packages only, one by one. -/
inductive Field.AllMoved : List Field → List Field → Prop
  | nil : Field.AllMoved [] []
  | cons {name tag : Option String} {t u : GoType} {fs fs' : List Field} (h : GoType.Moved t u)
    (hmore : Field.AllMoved fs fs') : Field.AllMoved (⟨name, t, tag⟩ :: fs) (⟨name, u, tag⟩ :: fs')

end

end

/-! ### Moving -/

namespace Account

section

variable {m : Type → Type} [Monad m] {A : Account m} {move : PackageId → String → m PackageId}
  {R : PackageId → String → PackageId → Prop}

/-- What a move asks about and answers at a declared type. -/
def Answers (A : Account m) (move : PackageId → String → m PackageId)
    (R : PackageId → String → PackageId → Prop) : Prop :=
  ∀ package name, A.holds (move package name) [(package, name)] (R package name)

mutual

/-- **Moving asks about the declared types** from left to right, and changes nothing but packages. -/
theorem relocateM (h : A.Answers move R) (type : GoType) :
    A.holds (type.relocateM move) type.declared (GoType.Moved R type) := by
  match type with
  | .basic name =>
    rw [GoType.declared_eq (by simp)]
    exact A.pure (.basic name)
  | .named package name =>
    rw [GoType.declared_named]
    exact map (h package name) fun _ => .named
  | .pointer elem =>
    rw [GoType.declared_eq_elem rfl (by simp)]
    exact map (relocateM h elem) fun _ => .pointer
  | .slice elem =>
    rw [GoType.declared_eq_elem rfl (by simp)]
    exact map (relocateM h elem) fun _ => .slice
  | .array length elem =>
    rw [GoType.declared_eq_elem rfl (by simp)]
    exact map (relocateM h elem) fun _ => .array length
  | .map key value =>
    rw [GoType.declared_map]
    exact A.bind (relocateM h key) fun _ hkey => map (relocateM h value) fun _ => .map hkey
  | .chan direction elem =>
    rw [GoType.declared_eq_elem rfl (by simp)]
    exact map (relocateM h elem) fun _ => .chan direction
  | .func signature =>
    rw [GoType.declared_eq (by simp)]
    exact map (relocateSignature h signature) fun _ => .func
  | .interface ⟨methods, embeds⟩ =>
    rw [GoType.declared_interface]
    exact A.bind (relocateMethods h methods) fun _ hmethods => map (relocateTypes h embeds) fun _ =>
      .interface hmethods
  | .struct fields =>
    rw [GoType.declared_eq (by simp)]
    exact map (relocateFields h fields) fun _ => .struct

/-- Moving several types asks about the declared types of each, in turn. -/
theorem relocateTypes (h : A.Answers move R) (types : List GoType) :
    A.holds (GoType.relocateAllM move types) (declaredIn types) (GoType.AllMoved R types) := by
  match types with
  | [] => exact A.pure .nil
  | type :: types =>
    exact A.bind (relocateM h type) fun _ htype => map (relocateTypes h types) fun _ => .cons htype

/-- Moving a signature asks about its parameters, and then about its results. -/
theorem relocateSignature (h : A.Answers move R) (signature : Signature) :
    A.holds (signature.relocateM move) (declaredIn signature.types) (Signature.Moved R signature) := by
  match signature with
  | ⟨params, results, variadic⟩ =>
    rw [Signature.types, List.map_append, declaredIn_append]
    exact A.bind (relocateParams h params) fun _ hparams => map (relocateParams h results) fun _ =>
      .mk hparams

/-- Moving parameters asks about the declared types in their types. -/
theorem relocateParams (h : A.Answers move R) (params : List Param) :
    A.holds (Param.relocateAllM move params) (declaredIn (params.map Param.type))
      (Param.AllMoved R params) := by
  match params with
  | [] => exact A.pure .nil
  | ⟨name, type⟩ :: params =>
    exact A.bind (relocateM h type) fun _ htype => map (relocateParams h params) fun _ => .cons htype

/-- Moving methods asks about the declared types in their signatures. -/
theorem relocateMethods (h : A.Answers move R) (methods : List Method) :
    A.holds (Method.relocateAllM move methods) (declaredIn (methods.flatMap (·.signature.types)))
      (Method.AllMoved R methods) := by
  match methods with
  | [] => exact A.pure .nil
  | ⟨name, signature⟩ :: methods =>
    rw [List.flatMap_cons, declaredIn_append]
    exact A.bind (relocateSignature h signature) fun _ hsignature => map (relocateMethods h methods)
      fun _ => .cons hsignature

/-- Moving fields asks about the declared types in their types. -/
theorem relocateFields (h : A.Answers move R) (fields : List Field) :
    A.holds (Field.relocateAllM move fields) (declaredIn (fields.map Field.type))
      (Field.AllMoved R fields) := by
  match fields with
  | [] => exact A.pure .nil
  | ⟨name, type, tag⟩ :: fields =>
    exact A.bind (relocateM h type) fun _ htype => map (relocateFields h fields) fun _ => .cons htype

end

end

end Account

/-! ### Writing -/

namespace Account

section

variable {m : Type → Type} [Monad m] {A : Account m} {qualifier : PackageId → m String}

/-- What a qualifier asks about at a declared type. -/
def Qualifies (A : Account m) (qualifier : PackageId → m String) : Prop :=
  ∀ package name, A.holds (qualifier package) [(package, name)] fun _ => True

mutual

/-- **Writing asks about the declared types** from left to right. -/
theorem renderM (h : A.Qualifies qualifier) (type : GoType) :
    A.holds (type.renderM qualifier) type.declared fun _ => True := by
  match type with
  | .basic name =>
    rw [GoType.declared_eq (by simp)]
    exact A.pure trivial
  | .named package name =>
    rw [GoType.declared_named]
    exact map (h package name) fun _ => id
  | .pointer elem | .slice elem | .array _ elem | .chan _ elem =>
    rw [GoType.declared_eq_elem rfl (by simp)]
    exact map (renderM h elem) fun _ => id
  | .map key value =>
    rw [GoType.declared_map]
    exact A.bind (renderM h key) fun _ _ => map (renderM h value) fun _ => id
  | .func signature =>
    rw [GoType.declared_eq (by simp)]
    exact map (renderSignature h signature) fun _ => id
  | .interface ⟨methods, embeds⟩ =>
    rw [GoType.declared_interface]
    exact A.bind (renderMethods h methods) fun _ _ => map (renderTypes h embeds) fun _ => id
  | .struct fields =>
    rw [GoType.declared_eq (by simp)]
    exact map (renderFields h fields) fun _ => id

/-- Writing several types asks about the declared types of each, in turn. -/
theorem renderTypes (h : A.Qualifies qualifier) (types : List GoType) :
    A.holds (GoType.renderAllM qualifier types) (declaredIn types) fun _ => True := by
  match types with
  | [] => exact A.pure trivial
  | type :: types => exact A.bind (renderM h type) fun _ _ => map (renderTypes h types) fun _ => id

/-- Writing a signature asks about its parameters, and then about its results. -/
theorem renderSignature (h : A.Qualifies qualifier) (signature : Signature) :
    A.holds (signature.renderM qualifier) (declaredIn signature.types) fun _ => True := by
  match signature with
  | ⟨params, results, variadic⟩ =>
    rw [Signature.types, List.map_append, declaredIn_append]
    exact A.bind (renderParams h variadic params) fun _ _ => map (renderParams h false results) fun _ => id

/-- Writing parameters asks about the declared types in their types, whether or not the last of them
is written with dots. -/
theorem renderParams (h : A.Qualifies qualifier) (variadic : Bool) (params : List Param) :
    A.holds (Param.renderAllM qualifier variadic params) (declaredIn (params.map Param.type))
      fun _ => True := by
  match params with
  | [] => exact A.pure trivial
  | [⟨name, type⟩] =>
    change A.holds _ (declaredIn [type]) _
    rw [declaredIn_singleton]
    cases type with
    | slice elem =>
      -- the last parameter may show its element type behind three dots
      rw [GoType.declared_eq_elem rfl (by simp)]
      exact map (renderM h elem) fun _ => id
    | _ =>
      rw [← List.append_nil (GoType.declared _)]
      exact A.bind (renderM h _) fun _ _ => map (A.pure trivial) fun _ => id
  | ⟨name, type⟩ :: param :: params =>
    have hmore := renderParams h variadic (param :: params)
    have htext := renderM h type
    cases type <;> exact A.bind htext fun _ _ => map hmore fun _ => id

/-- Writing methods asks about the declared types in their signatures. -/
theorem renderMethods (h : A.Qualifies qualifier) (methods : List Method) :
    A.holds (Method.renderAllM qualifier methods) (declaredIn (methods.flatMap (·.signature.types)))
      fun _ => True := by
  match methods with
  | [] => exact A.pure trivial
  | ⟨name, signature⟩ :: methods =>
    rw [List.flatMap_cons, declaredIn_append]
    exact A.bind (renderSignature h signature) fun _ _ => map (renderMethods h methods) fun _ => id

/-- Writing fields asks about the declared types in their types. -/
theorem renderFields (h : A.Qualifies qualifier) (fields : List Field) :
    A.holds (Field.renderAllM qualifier fields) (declaredIn (fields.map Field.type)) fun _ => True := by
  match fields with
  | [] => exact A.pure trivial
  | ⟨name, type, tag⟩ :: fields =>
    exact A.bind (renderM h type) fun _ _ => map (renderFields h fields) fun _ => id

end

end

end Account

section

variable {m : Type → Type} [Monad m] {R : PackageId → String → PackageId → Prop}
  {qualifier other : PackageId → m String}

/-- A channel that receives is one wherever it is moved, so the parentheses around it stay. -/
theorem GoType.Moved.isReceiver_eq {t u : GoType} (h : GoType.Moved R t u) :
    u.isReceiver = t.isReceiver := by
  cases h with
  | chan direction h => cases direction <;> rfl
  | _ => rfl

mutual

/-- **A moved type is written like the type**, if the same stands in front of its names. -/
theorem GoType.Moved.renderM_eq
    (hR : ∀ before name after, R before name after → other after = qualifier before) {t u : GoType}
    (h : GoType.Moved R t u) : u.renderM other = t.renderM qualifier := by
  match t, u, h with
  | _, _, .basic name => rfl
  | _, _, .named hmoved => rw [GoType.renderM, GoType.renderM, hR _ _ _ hmoved]
  | _, _, .pointer h | _, _, .slice h | _, _, .array length h =>
    rw [GoType.renderM, GoType.renderM, h.renderM_eq hR]
  | _, _, .map hkey h => rw [GoType.renderM, GoType.renderM, hkey.renderM_eq hR, h.renderM_eq hR]
  | _, _, .chan direction h =>
    rw [GoType.renderM, GoType.renderM, h.renderM_eq hR, h.isReceiver_eq]
  | _, _, .func h => rw [GoType.renderM, GoType.renderM, h.renderM_eq hR]
  | _, _, .interface hmethods hembeds =>
    rw [GoType.renderM, GoType.renderM, hmethods.renderM_eq hR, hembeds.renderM_eq hR]
  | _, _, .struct h => rw [GoType.renderM, GoType.renderM, h.renderM_eq hR]

/-- Moved types are written like the types they were. -/
theorem GoType.AllMoved.renderM_eq
    (hR : ∀ before name after, R before name after → other after = qualifier before)
    {ts us : List GoType} (h : GoType.AllMoved R ts us) :
    GoType.renderAllM other us = GoType.renderAllM qualifier ts := by
  match ts, us, h with
  | _, _, .nil => rfl
  | _, _, .cons h hmore => rw [GoType.renderAllM, GoType.renderAllM, h.renderM_eq hR, hmore.renderM_eq hR]

/-- A moved signature is written like the signature it was. -/
theorem Signature.Moved.renderM_eq
    (hR : ∀ before name after, R before name after → other after = qualifier before)
    {s s' : Signature} (h : Signature.Moved R s s') : s'.renderM other = s.renderM qualifier := by
  match s, s', h with
  | _, _, .mk hparams hresults =>
    rw [Signature.renderM, Signature.renderM, hparams.renderM_eq hR, hresults.renderM_eq hR]
    refine bind_congr fun params => bind_congr fun texts => ?_
    -- whether the results stand in parentheses depends on how many they are and on a name
    cases hresults with
    | nil => rfl
    | @cons name _ _ _ _ _ hmore =>
      by_cases hname : name = ""
      · subst hname
        cases hmore <;> rcases texts with _ | ⟨text, _ | _⟩ <;> rfl
      · simp [hname]

/-- Moved parameters are written like the parameters they were. -/
theorem Param.AllMoved.renderM_eq
    (hR : ∀ before name after, R before name after → other after = qualifier before)
    {ps ps' : List Param} (h : Param.AllMoved R ps ps') (variadic : Bool) :
    Param.renderAllM other variadic ps' = Param.renderAllM qualifier variadic ps := by
  match ps, ps', h with
  | _, _, .nil => rfl
  | _, _, .cons h .nil =>
    have htext := h.renderM_eq hR
    cases h with
    | slice h => rw [Param.renderAllM, Param.renderAllM, h.renderM_eq hR]
    | _ => simp only [Param.renderAllM, htext]
  | _ :: _ :: _, _, .cons h hmore =>
    have hall := hmore.renderM_eq hR variadic
    cases hmore
    simp only [Param.renderAllM, h.renderM_eq hR, hall]

/-- Moved methods are written like the methods they were. -/
theorem Method.AllMoved.renderM_eq
    (hR : ∀ before name after, R before name after → other after = qualifier before)
    {ms ms' : List Method} (h : Method.AllMoved R ms ms') :
    Method.renderAllM other ms' = Method.renderAllM qualifier ms := by
  match ms, ms', h with
  | _, _, .nil => rfl
  | _, _, .cons h hmore =>
    rw [Method.renderAllM, Method.renderAllM, h.renderM_eq hR, hmore.renderM_eq hR]

/-- Moved fields are written like the fields they were. -/
theorem Field.AllMoved.renderM_eq
    (hR : ∀ before name after, R before name after → other after = qualifier before)
    {fs fs' : List Field} (h : Field.AllMoved R fs fs') :
    Field.renderAllM other fs' = Field.renderAllM qualifier fs := by
  match fs, fs', h with
  | _, _, .nil => rfl
  | _, _, .cons h hmore =>
    rw [Field.renderAllM, Field.renderAllM, h.renderM_eq hR, hmore.renderM_eq hR]

end

end

/-! ### What is asked -/

section

variable {σ τ α : Type}

/-- A step that first notes which package it is about. -/
def noting (package : PackageId) (x : StateM σ α) : StateM (σ × List PackageId) α := fun s =>
  let result := x.run s.1
  (result.1, (result.2, s.2 ++ [package]))

/-- The packages that are noted in the course of a computation. -/
def noted (x : StateM (σ × List PackageId) α) (s : σ) : List PackageId :=
  (x.run (s, [])).2.2

/-- The notes of computations, and what they return. -/
def Account.notes (σ : Type) : Account (StateM (σ × List PackageId)) where
  holds x asked post := ∀ s, post (x.run s).1 ∧ (x.run s).2.2 = s.2 ++ asked.map Prod.fst
  pure h s := ⟨h, (List.append_nil _).symm⟩
  bind hx hf s := by
    obtain ⟨hpost, hseen⟩ := hx s
    obtain ⟨hpost', hmore⟩ := hf _ hpost (_ : σ × List PackageId)
    exact ⟨hpost', by rw [List.map_append, ← List.append_assoc, ← hseen]; exact hmore⟩

/-- A step that notes a package asks about that package. -/
theorem Account.notes_noting (package : PackageId) (name : String) (x : StateM σ α) :
    (Account.notes σ).holds (noting package x) [(package, name)] fun _ => True :=
  fun _ => ⟨trivial, rfl⟩

/-- What is noted on the way are the packages that were asked about. -/
theorem Account.noted_eq {x : StateM (σ × List PackageId) α} {asked : List (PackageId × String)}
    {post : α → Prop} (h : (Account.notes σ).holds x asked post) (s : σ) :
    noted x s = asked.map Prod.fst :=
  (h (s, [])).2

/-- **Writing hands the packages of the declared types to the qualifier**, from left to right. -/
theorem GoType.noted_renderM (qualifier : PackageId → StateM σ String) (t : GoType) (s : σ) :
    noted (t.renderM fun package => noting package (qualifier package)) s = t.declared.map Prod.fst :=
  Account.noted_eq (Account.renderM (fun package name => Account.notes_noting package name _) t) s

/-- **Moving hands over the packages of the declared types**, from left to right. -/
theorem GoType.noted_relocateM (move : PackageId → String → StateM σ PackageId) (t : GoType) (s : σ) :
    noted (t.relocateM fun package name => noting package (move package name)) s =
      t.declared.map Prod.fst :=
  Account.noted_eq
    (Account.relocateM (R := fun _ _ _ => True) (fun package name => Account.notes_noting package name _) t) s

/-- A plain move changes packages as the function says. -/
theorem GoType.moved_relocate (move : PackageId → String → PackageId) (t : GoType) :
    GoType.Moved (fun before name after => after = move before name) t (t.relocate move) :=
  Account.relocateM (A := .plain) (R := fun before name after => after = move before name)
    (fun _ _ => rfl) t

/-- **Nothing but packages changes in a move**, however the answers depend on each other. -/
theorem GoType.moved_relocateM (move : PackageId → String → StateM σ PackageId) (t : GoType) (s : σ) :
    GoType.Moved (fun _ _ _ => True) t ((t.relocateM move).run s).1 :=
  Account.relocateM (A := .stateful σ) (fun _ _ _ => trivial) t s

/-- **Writing and moving go through a type alike.** What writing hands to its qualifier is what moving
hands over, in the same order; a qualifier that is told of a move writes the type as the moved type is
written, with the same effects; and no move shows where nothing stands in front of names. -/
theorem GoType.renderM_relocateM_alike (t : GoType) :
    (∀ (σ τ : Type) (qualifier : PackageId → StateM σ String)
        (move : PackageId → String → StateM τ PackageId) (s : σ) (r : τ),
      noted (t.renderM fun package => noting package (qualifier package)) s =
        noted (t.relocateM fun package name => noting package (move package name)) r ∧
      noted (t.relocateM fun package name => noting package (move package name)) r =
        t.declared.map Prod.fst) ∧
    (∀ (m : Type → Type) [Monad m] (f : PackageId → PackageId) (qualifier : PackageId → m String),
      (t.relocate fun package _ => f package).renderM qualifier =
        t.renderM fun package => qualifier (f package)) ∧
    ∀ (σ : Type) (move : PackageId → String → StateM σ PackageId) (s : σ),
      GoType.Moved (fun _ _ _ => True) t ((t.relocateM move).run s).1 ∧
      ((t.relocateM move).run s).1.render (fun _ => "") = t.render fun _ => "" := by
  refine ⟨fun σ τ qualifier move s r => ?_, fun m _ f qualifier => ?_, fun σ move s => ?_⟩
  · have hmove := t.noted_relocateM move r
    exact ⟨(t.noted_renderM qualifier s).trans hmove.symm, hmove⟩
  · refine (t.moved_relocate fun package _ => f package).renderM_eq fun before _ after hafter => ?_
    rw [hafter]
  · have hmoved := t.moved_relocateM move s
    exact ⟨hmoved, hmoved.renderM_eq fun _ _ _ _ => rfl⟩

end

end Multicast
