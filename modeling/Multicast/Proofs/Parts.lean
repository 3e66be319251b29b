import Multicast.Types.Relocation

/-!
# The parts of a type

Types contain types through signatures, interfaces and structs, and most facts about them do not
care through which. `GoType.components` lists the types right inside a type, `GoType.Has` the types
that occur in it at any depth, and `GoType.componentInduction` is the induction that treats all
constructors alike. A function on types can be applied to the components alone (`mapComponents`),
and moving a type between packages does just that at every type that is not a declared one
(`relocate_eq`). What moving preserves is proved from this equation.

## Why components

The constructors of types differ in what they hold: one type, two, a list of parameters, methods or
fields. A statement that is inherited from the types inside would need a case for each. With `components`
it needs one: the types inside are a list, and moving a type is `mapComponents` with a function for
declared types. So an induction has the case of the declared types, and one for all other constructors
together.

That this is well-founded is said once, where a component is smaller than the type that it is in.
-/

namespace Multicast

/-! ### Components and occurrences

What occurs in a type is the reflexive and transitive closure of being a component. It is used in
statements, and the components in proofs. -/

/-- The types of the parameters and results. -/
def Signature.types (signature : Signature) : List GoType :=
  (signature.params ++ signature.results).map Param.type

namespace GoType

/-- The types right inside a type. -/
def components : GoType → List GoType
  | .basic _ | .named _ _ => []
  | .pointer elem | .slice elem | .array _ elem | .chan _ elem => [elem]
  | .map key value => [key, value]
  | .func signature => signature.types
  | .interface body => body.methods.flatMap (·.signature.types) ++ body.embeds
  | .struct fields => fields.map Field.type

/-- **A type occurs in a type**: it is the type itself, or occurs in a component. -/
inductive Has : GoType → GoType → Prop
  | self (t : GoType) : Has t t
  | inside {t c s : GoType} (hc : c ∈ t.components) (hs : Has c s) : Has t s

end GoType

theorem Param.sizeOf_type_lt {p : Param} {ps : List Param} (h : p ∈ ps) :
    sizeOf p.type < sizeOf ps := by
  have hmem := List.sizeOf_lt_of_mem h
  cases p
  simp only [Param.mk.sizeOf_spec] at hmem ⊢
  omega

theorem Signature.sizeOf_lt {signature : Signature} {s : GoType} (h : s ∈ signature.types) :
    sizeOf s < sizeOf signature := by
  obtain ⟨p, hp, rfl⟩ := List.mem_map.1 h
  cases signature
  rw [Signature.mk.sizeOf_spec]
  rcases List.mem_append.1 hp with hp | hp
  all_goals
    have hlt := Param.sizeOf_type_lt hp
    dsimp only at hlt
    omega

namespace GoType

theorem sizeOf_component_lt {t s : GoType} (h : s ∈ t.components) : sizeOf s < sizeOf t := by
  cases t with
  | basic | named => cases h
  | pointer | slice | array | chan =>
    obtain rfl := List.mem_singleton.1 h
    simp only [pointer.sizeOf_spec, slice.sizeOf_spec, array.sizeOf_spec, chan.sizeOf_spec]
    omega
  | map key value =>
    rw [map.sizeOf_spec]
    rcases List.mem_cons.1 h with rfl | h
    · omega
    · obtain rfl := List.mem_singleton.1 h
      omega
  | func signature =>
    have hlt := Signature.sizeOf_lt h
    rw [func.sizeOf_spec]
    omega
  | interface body =>
    obtain ⟨methods, embeds⟩ := body
    rw [interface.sizeOf_spec, Interface.mk.sizeOf_spec]
    rcases List.mem_append.1 h with h | h
    · obtain ⟨m, hm, hs⟩ := List.mem_flatMap.1 h
      have hlt := Signature.sizeOf_lt hs
      have hmem := List.sizeOf_lt_of_mem hm
      cases m
      simp only [Method.mk.sizeOf_spec] at hlt hmem
      omega
    · have hlt := List.sizeOf_lt_of_mem h
      dsimp only at hlt
      omega
  | struct fields =>
    obtain ⟨f, hf, rfl⟩ := List.mem_map.1 h
    have hmem := List.sizeOf_lt_of_mem hf
    cases f
    simp only [Field.mk.sizeOf_spec] at hmem
    rw [struct.sizeOf_spec]
    dsimp only
    omega

/-- **Induction on types**: what a type inherits from its components holds of all types. -/
theorem componentInduction {P : GoType → Prop}
    (h : ∀ t : GoType, (∀ s ∈ t.components, P s) → P t) (t : GoType) : P t :=
  h t fun s _ => componentInduction h s
termination_by sizeOf t
decreasing_by exact sizeOf_component_lt ‹_›

theorem has_iff {t s : GoType} : t.Has s ↔ s = t ∨ ∃ c ∈ t.components, c.Has s := by
  constructor
  · rintro (_ | ⟨hc, hs⟩)
    · exact Or.inl rfl
    · exact Or.inr ⟨_, hc, hs⟩
  · rintro (rfl | ⟨c, hc, hs⟩)
    · exact .self _
    · exact .inside hc hs

theorem Has.trans {t s r : GoType} (hs : t.Has s) (hr : s.Has r) : t.Has r := by
  induction hs with
  | self => exact hr
  | inside hc _ ih => exact .inside hc (ih hr)

/-- **Induction on types**, from everything that occurs properly inside a type. -/
theorem partInduction {P : GoType → Prop}
    (h : ∀ t : GoType, (∀ c ∈ t.components, ∀ s, c.Has s → P s) → P t) (t : GoType) : P t := by
  suffices hall : ∀ s, t.Has s → P s from hall t (.self t)
  induction t using componentInduction with
  | h t ih =>
    intro s hs
    rcases has_iff.1 hs with rfl | ⟨c, hc, hs⟩
    · exact h s ih
    · exact ih c hc s hs

/-- Whether everything that occurs in a type passes a check. -/
def everywhere (p : GoType → Bool) (t : GoType) : Bool :=
  p t && t.components.attach.all fun c => everywhere p c.1
termination_by sizeOf t
decreasing_by exact sizeOf_component_lt c.2

theorem everywhere_iff {p : GoType → Bool} {t : GoType} :
    t.everywhere p = true ↔ ∀ s, t.Has s → p s = true := by
  induction t using componentInduction with
  | h t ih =>
    rw [everywhere, Bool.and_eq_true, List.all_eq_true]
    constructor
    · rintro ⟨ht, hcomponents⟩ s hs
      rcases has_iff.1 hs with rfl | ⟨c, hc, hs⟩
      · exact ht
      · exact (ih c hc).1 (hcomponents ⟨c, hc⟩ (List.mem_attach _ _)) s hs
    · intro h
      exact ⟨h t (.self t), fun c _ => (ih c c.2).2 fun s hs => h s (.inside c.2 hs)⟩

end GoType

/-! ### Applying a function to the components -/

section

variable (f : GoType → GoType)

/-- Applies a function to the type of a parameter. -/
def Param.mapType (p : Param) : Param :=
  { p with type := f p.type }

/-- Applies a function to the types of a signature. -/
def Signature.mapTypes (s : Signature) : Signature :=
  { s with params := s.params.map (Param.mapType f), results := s.results.map (Param.mapType f) }

/-- Applies a function to the types of a method. -/
def Method.mapTypes (m : Method) : Method :=
  { m with signature := m.signature.mapTypes f }

/-- Applies a function to the types of an interface. -/
def Interface.mapTypes (i : Interface) : Interface where
  methods := i.methods.map (Method.mapTypes f)
  embeds := i.embeds.map f

/-- Applies a function to the type of a field. -/
def Field.mapType (field : Field) : Field :=
  { field with type := f field.type }

/-- Applies a function to the components of a type. -/
def GoType.mapComponents : GoType → GoType
  | .basic name => .basic name
  | .named package name => .named package name
  | .pointer elem => .pointer (f elem)
  | .slice elem => .slice (f elem)
  | .array length elem => .array length (f elem)
  | .map key value => .map (f key) (f value)
  | .chan direction elem => .chan direction (f elem)
  | .func signature => .func (signature.mapTypes f)
  | .interface body => .interface (body.mapTypes f)
  | .struct fields => .struct (fields.map (Field.mapType f))

end

section

variable {f g : GoType → GoType}

theorem Param.mapType_congr {ps : List Param} (h : ∀ p ∈ ps, f p.type = g p.type) :
    ps.map (Param.mapType f) = ps.map (Param.mapType g) :=
  List.map_congr_left fun p hp => by rw [mapType, mapType, h p hp]

theorem Signature.mem_types {s : Signature} {t : GoType} :
    t ∈ s.types ↔ (∃ p ∈ s.params, p.type = t) ∨ ∃ p ∈ s.results, p.type = t := by
  simp [types]

theorem Signature.mapTypes_congr {s : Signature} (h : ∀ t ∈ s.types, f t = g t) :
    s.mapTypes f = s.mapTypes g := by
  rw [mapTypes, mapTypes, Param.mapType_congr fun p hp => h _ (mem_types.2 (.inl ⟨p, hp, rfl⟩)),
    Param.mapType_congr fun p hp => h _ (mem_types.2 (.inr ⟨p, hp, rfl⟩))]

theorem Signature.types_mapTypes (s : Signature) : (s.mapTypes f).types = s.types.map f := by
  simp [types, mapTypes, Param.mapType, Function.comp_def]

namespace GoType

/-- Functions that agree on the components of a type do the same to it. -/
theorem mapComponents_congr {t : GoType} (h : ∀ s ∈ t.components, f s = g s) :
    t.mapComponents f = t.mapComponents g := by
  cases t with
  | basic | named => rfl
  | pointer elem | slice elem | array _ elem | chan _ elem =>
    simp only [mapComponents, h elem (List.mem_singleton_self _)]
  | map key value =>
    simp only [mapComponents, h key (by simp [components]), h value (by simp [components])]
  | func signature => rw [mapComponents, mapComponents, Signature.mapTypes_congr h]
  | interface body =>
    have hmethods : body.methods.map (Method.mapTypes f) = body.methods.map (Method.mapTypes g) :=
      List.map_congr_left fun m hm => by
        rw [Method.mapTypes, Method.mapTypes, Signature.mapTypes_congr fun s hs =>
          h s (List.mem_append_left _ (List.mem_flatMap.2 ⟨m, hm, hs⟩))]
    have hembeds : body.embeds.map f = body.embeds.map g :=
      List.map_congr_left fun s hs => h s (List.mem_append_right _ hs)
    rw [mapComponents, mapComponents, Interface.mapTypes, Interface.mapTypes, hmethods, hembeds]
  | struct fields =>
    have hfields : fields.map (Field.mapType f) = fields.map (Field.mapType g) :=
      List.map_congr_left fun field hf => by
        rw [Field.mapType, Field.mapType, h _ (List.mem_map_of_mem hf)]
    rw [mapComponents, mapComponents, hfields]

theorem mapComponents_id (t : GoType) : t.mapComponents (fun s => s) = t := by
  have hparam : Param.mapType (fun s => s) = id := by
    funext p
    cases p
    rfl
  have hsignature : Signature.mapTypes (fun s => s) = id := by
    funext s
    cases s
    simp [Signature.mapTypes, hparam]
  have hmethod : Method.mapTypes (fun s => s) = id := by
    funext m
    cases m
    simp [Method.mapTypes, hsignature]
  have hbody (body : Interface) : body.mapTypes (fun s => s) = body := by
    cases body
    simp [Interface.mapTypes, hmethod]
  have hfield : Field.mapType (fun s => s) = id := by
    funext field
    cases field
    rfl
  cases t <;> simp [mapComponents, hsignature, hbody, hfield]

theorem mapComponents_mapComponents (t : GoType) :
    (t.mapComponents f).mapComponents g = t.mapComponents fun s => g (f s) := by
  have hparam : Param.mapType g ∘ Param.mapType f = Param.mapType fun s => g (f s) := rfl
  have hsignature (s : Signature) :
      (s.mapTypes f).mapTypes g = s.mapTypes fun s => g (f s) := by
    simp [Signature.mapTypes, hparam]
  have hmethod : Method.mapTypes g ∘ Method.mapTypes f = Method.mapTypes fun s => g (f s) := by
    funext m
    simp [Method.mapTypes, hsignature]
  have hfield : Field.mapType g ∘ Field.mapType f = Field.mapType fun s => g (f s) := rfl
  cases t <;>
    simp [mapComponents, Interface.mapTypes, hsignature, hmethod, hfield, Function.comp_def]

theorem components_mapComponents (t : GoType) :
    (t.mapComponents f).components = t.components.map f := by
  cases t <;> simp [mapComponents, components, Signature.types_mapTypes, Interface.mapTypes,
    Method.mapTypes, Field.mapType, List.flatMap_map, List.map_flatMap, Function.comp_def]

end GoType

end

/-! ### Moving a type

Types of a package that is not moved stay as they are, and moving twice is moving once by both moves.

The traversal is written for moves with effects, and goes into lists by recursion. Without effects it
is a map over each list. -/

section

variable {move : PackageId → String → PackageId}

/-- Moving parameters is moving the type of each. -/
theorem Param.run_relocateAllM (ps : List Param) :
    Id.run (relocateAllM (fun package name => pure (move package name)) ps) =
      ps.map (mapType (GoType.relocate move)) := by
  induction ps with
  | nil => rfl
  | cons p ps ih =>
    cases p
    rw [List.map_cons, ← ih]
    rfl

/-- Moving a signature is moving its parameters and its results. -/
theorem Signature.run_relocateM (signature : Signature) :
    Id.run (signature.relocateM fun package name => pure (move package name)) =
      signature.mapTypes (GoType.relocate move) := by
  cases signature
  rw [mapTypes, ← Param.run_relocateAllM, ← Param.run_relocateAllM]
  rfl

/-- Moving methods is moving the signature of each. -/
theorem Method.run_relocateAllM (ms : List Method) :
    Id.run (relocateAllM (fun package name => pure (move package name)) ms) =
      ms.map (mapTypes (GoType.relocate move)) := by
  induction ms with
  | nil => rfl
  | cons m ms ih =>
    cases m
    rw [List.map_cons, ← ih, mapTypes, ← Signature.run_relocateM]
    rfl

/-- Moving types is moving each of them. -/
theorem GoType.run_relocateAllM (ts : List GoType) :
    Id.run (relocateAllM (fun package name => pure (move package name)) ts) =
      ts.map (relocate move) := by
  induction ts with
  | nil => rfl
  | cons t ts ih =>
    rw [List.map_cons, ← ih]
    rfl

/-- Moving fields is moving the type of each. -/
theorem Field.run_relocateAllM (fs : List Field) :
    Id.run (relocateAllM (fun package name => pure (move package name)) fs) =
      fs.map (mapType (GoType.relocate move)) := by
  induction fs with
  | nil => rfl
  | cons field fs ih =>
    cases field
    rw [List.map_cons, ← ih]
    rfl

end

namespace GoType

variable {move other : PackageId → String → PackageId}

@[simp] theorem relocate_named (package : PackageId) (name : String) :
    (named package name).relocate move = .named (move package name) name := rfl

/-- **Moving goes through a type**: what is not a declared type is moved by moving its
components. -/
theorem relocate_eq {t : GoType} (h : ∀ package name, t ≠ .named package name) :
    t.relocate move = t.mapComponents (relocate move) := by
  cases t with
  | named package name => exact absurd rfl (h package name)
  | basic | pointer | slice | array | map | chan => rfl
  | func signature => exact congrArg func signature.run_relocateM
  | interface body =>
    cases body
    rw [mapComponents, Interface.mapTypes, ← Method.run_relocateAllM, ← run_relocateAllM]
    rfl
  | struct fields => exact congrArg struct (Field.run_relocateAllM fields)

/-- A type is a declared one, or is moved by moving its components. -/
theorem named_or_relocate (t : GoType) (move : PackageId → String → PackageId) :
    (∃ package name, t = .named package name) ∨
      t.relocate move = t.mapComponents (relocate move) := by
  by_cases h : ∃ package name, t = .named package name
  · exact Or.inl h
  · exact Or.inr (relocate_eq fun package name ht => h ⟨package, name, ht⟩)

/-- The components of a moved type are the moved components. -/
theorem components_relocate (t : GoType) :
    (t.relocate move).components = t.components.map (relocate move) := by
  rcases t.named_or_relocate move with ⟨package, name, rfl⟩ | h
  · rfl
  · rw [h, components_mapComponents]

/-- **What occurs in a moved type** are the moved types that occurred in it. -/
theorem has_relocate {t s : GoType} :
    (t.relocate move).Has s ↔ ∃ r, t.Has r ∧ r.relocate move = s := by
  constructor
  · intro h
    induction t using componentInduction with
    | h t ih =>
      rcases has_iff.1 h with rfl | ⟨c, hc, hs⟩
      · exact ⟨t, .self t, rfl⟩
      · rw [components_relocate] at hc
        obtain ⟨b, hb, rfl⟩ := List.mem_map.1 hc
        obtain ⟨r, hr, rfl⟩ := ih b hb hs
        exact ⟨r, .inside hb hr, rfl⟩
  · rintro ⟨r, hr, rfl⟩
    induction hr with
    | self t => exact .self _
    | inside hc _ ih =>
      refine .inside ?_ ih
      rw [components_relocate]
      exact List.mem_map_of_mem hc

/-- The declared types that occur in a moved type. -/
theorem has_relocate_named {t : GoType} {package : PackageId} {name : String} :
    (t.relocate move).Has (.named package name) ↔
      ∃ before, t.Has (.named before name) ∧ move before name = package := by
  rw [has_relocate]
  constructor
  · rintro ⟨r, hr, hmoved⟩
    rcases r.named_or_relocate move with ⟨before, n, rfl⟩ | heq
    · rw [relocate_named] at hmoved
      cases hmoved
      exact ⟨before, hr, rfl⟩
    · rw [heq] at hmoved
      cases r <;> cases hmoved
      exact ⟨package, hr, (GoType.named.inj ((relocate_named ..).symm.trans heq)).1⟩
  · rintro ⟨before, hbefore, rfl⟩
    exact ⟨_, hbefore, relocate_named ..⟩

/-- Moves that agree on every declared type in a type move it alike. -/
theorem relocate_congr {t : GoType}
    (h : ∀ package name, t.Has (.named package name) → move package name = other package name) :
    t.relocate move = t.relocate other := by
  induction t using componentInduction with
  | h t ih =>
    by_cases ht : ∃ package name, t = .named package name
    · obtain ⟨package, name, rfl⟩ := ht
      simp [h package name (.self _)]
    · have ht' : ∀ package name, t ≠ .named package name := fun package name heq =>
        ht ⟨package, name, heq⟩
      rw [relocate_eq ht', relocate_eq ht']
      exact mapComponents_congr fun s hs => ih s hs fun package name hname =>
        h package name (.inside hs hname)

/-- A move that leaves every declared type in a type where it is changes nothing. -/
theorem relocate_eq_self {t : GoType}
    (h : ∀ package name, t.Has (.named package name) → move package name = package) :
    t.relocate move = t := by
  induction t using componentInduction with
  | h t ih =>
    rcases t.named_or_relocate move with ⟨package, name, rfl⟩ | heq
    · simp [h package name (.self _)]
    · rw [heq, mapComponents_congr fun s hs => ih s hs fun package name hname =>
        h package name (.inside hs hname), mapComponents_id]

/-- Moving a type twice is one move. -/
theorem relocate_relocate (t : GoType) :
    (t.relocate move).relocate other =
      t.relocate fun package name => other (move package name) name := by
  induction t using componentInduction with
  | h t ih =>
    by_cases ht : ∃ package name, t = .named package name
    · obtain ⟨package, name, rfl⟩ := ht
      rfl
    · have ht' : ∀ package name, t ≠ .named package name := fun package name heq =>
        ht ⟨package, name, heq⟩
      have hmoved : ∀ package name, t.mapComponents (relocate move) ≠ .named package name := by
        intro package name heq
        cases t <;> cases heq
        exact ht' package name rfl
      rw [relocate_eq ht', relocate_eq hmoved, relocate_eq ht', mapComponents_mapComponents]
      exact mapComponents_congr ih

end GoType

end Multicast
