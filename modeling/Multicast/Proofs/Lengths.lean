import Multicast.Proofs.Qualifiers

/-!
# Lengths of arrays are taken over

The length of an array is kept as text, and whoever moves types between packages leaves it alone. So a
generated file shows it just as the source does: a constant of the source package goes without the
name of that package, and if the length mentions another package, this is no reason to import it
(`lengths_of_coilSources`). Everything else in the arguments is accounted for. A name in them is one
that they bind themselves, or it is predeclared, or declared in the package of the file, or it belongs
to an import (`arguments_of_ofInterface`).

## How the arguments are accounted for

The text of an argument is known as pieces, and pieces know their parts. That a length is shown means that
the pieces of its array type are among those of the argument, in one stretch (`Shows`); this goes along
the components of types, down to any depth. Names are collected from the pieces (`namesOf`), constructor
by constructor. A length is not among them, whatever it looks like, since it is one piece of its own; a
name in a length is therefore not accounted for, and the example shows that it need not be.
-/

namespace Multicast

open Source Syntax

variable {qualifier : PackageId → String}

/-! ### Types inside a written type

There is one exception to what shows what: a variadic parameter shows the element type of its slice, and
not the slice. -/

/-- Joined pieces show each of the parts. -/
theorem infix_joined {separator ps : List Piece} {pss : List (List Piece)} (h : ps ∈ pss) :
    ps <:+: joined separator pss := by
  induction pss with
  | nil => cases h
  | cons qs pss ih =>
    cases pss with
    | nil =>
      obtain rfl := List.mem_singleton.1 h
      simp [joined]
    | cons rs pss =>
      have hsplit : joined separator (qs :: rs :: pss) =
          qs ++ (separator ++ joined separator (rs :: pss)) := by
        simp [joined, List.intercalate_cons_cons]
      rw [hsplit]
      rcases List.mem_cons.1 h with rfl | h
      · exact (List.prefix_append _ _).isInfix
      · exact (ih h).trans ((List.suffix_append _ _).trans (List.suffix_append _ _)).isInfix

/-- What is listed stands between the parentheses. -/
theorem infix_list {ps : List Piece} {pss : List (List Piece)} (h : ps ∈ pss) :
    ps <:+: listPieces pss :=
  (infix_joined h).trans ⟨[.leftParen], [.rightParen], rfl⟩

/-- A body shows each of its items. -/
theorem infix_body {ps : List Piece} {pss : List (List Piece)} (h : ps ∈ pss) :
    ps <:+: bodyPieces pss :=
  (infix_joined h).trans ⟨[.leftBrace], [.rightBrace], rfl⟩

/-- A parameter shows its type. -/
theorem infix_param (name : String) (ps : List Piece) : ps <:+: paramPieces name ps := by
  unfold paramPieces
  split
  · exact List.infix_refl _
  · exact (List.suffix_append [.name name, .space] ps).isInfix

/-- A field shows its type. -/
theorem infix_field (name tag : Option String) (ps : List Piece) :
    ps <:+: fieldPieces name ps tag :=
  ⟨_, _, rfl⟩

/-- A channel shows its element type, with parentheses or without. -/
theorem infix_chan (direction : Direction) (nested : Bool) (ps : List Piece) :
    ps <:+: chanPieces direction nested ps := by
  cases direction with
  | both =>
    cases nested with
    | false => exact ⟨[.key .chanKw, .space], [], by simp [chanPieces]⟩
    | true => exact ⟨[.key .chanKw, .space, .leftParen], [.rightParen], by simp [chanPieces]⟩
  | send => exact ⟨[.key .chanKw, .arrow, .space], [], by simp [chanPieces]⟩
  | receive => exact ⟨[.arrow, .key .chanKw, .space], [], by simp [chanPieces]⟩

/-- Pieces show a type, or, if it is a slice at the end of a variadic list, the type of its
elements. -/
def Shows (qualifier : PackageId → String) (ps : List Piece) (s : GoType) : Prop :=
  s.pieces qualifier <:+: ps ∨ ∃ elem, s = .slice elem ∧ elem.pieces qualifier <:+: ps

theorem Shows.mono {ps qs : List Piece} {s : GoType} (h : Shows qualifier ps s) (hps : ps <:+: qs) :
    Shows qualifier qs s :=
  h.imp (·.trans hps) fun ⟨elem, heq, helem⟩ => ⟨elem, heq, helem.trans hps⟩

/-- A parameter shows its type. -/
theorem HookedParam.shows_type (p : HookedParam) : Shows qualifier (p.pieces qualifier) p.type := by
  obtain ⟨name, type, tail⟩ := p
  refine Shows.mono ?_ (infix_param name _)
  cases tail with
  | false => cases type <;> exact .inl (List.infix_refl _)
  | true =>
    cases type with
    | slice elem => exact .inr ⟨elem, rfl, (List.suffix_cons _ _).isInfix⟩
    | _ => exact .inl (List.infix_refl _)

/-- A signature shows the types of its parameters and results. -/
theorem Signature.shows_of_mem {signature : Signature} {s : GoType} (h : s ∈ signature.types) :
    Shows qualifier (signature.pieces qualifier) s := by
  rw [Signature.pieces_eq]
  rcases Signature.mem_types.1 h with ⟨p, hp, rfl⟩ | ⟨p, hp, rfl⟩
  -- a parameter, which is not shown as a slice if it is the tail of a variadic list
  · obtain ⟨hooked, hhooked, htype⟩ : ∃ hooked ∈ hookedParams signature.variadic signature.params,
        hooked.type = p.type := by
      rw [← List.mem_map, type_hookedParams]
      exact List.mem_map_of_mem hp
    refine htype ▸ hooked.shows_type.mono ?_
    exact (infix_list (List.mem_map_of_mem hhooked)).trans (List.prefix_append _ _).isInfix
  · refine .inl (((infix_param p.name _).trans ?_).trans (List.suffix_append _ _).isInfix)
    have hmem : paramPieces p.name (p.type.pieces qualifier) ∈
        signature.results.map fun p => paramPieces p.name (p.type.pieces qualifier) :=
      List.mem_map.2 ⟨p, hp, rfl⟩
    unfold resultPieces
    split
    next type ps _ heq =>
      rw [heq] at hmem
      exact List.mem_singleton.1 hmem ▸ (List.suffix_cons _ _).isInfix
    next heq =>
      rw [heq] at hp
      cases hp
    next => exact (infix_list hmem).trans (List.suffix_cons _ _).isInfix

/-- **A written type shows its components.** -/
theorem GoType.shows_component {t s : GoType} (h : s ∈ t.components) :
    Shows qualifier (t.pieces qualifier) s := by
  cases t with
  | basic name => cases h
  | named package name => cases h
  | pointer elem => exact List.mem_singleton.1 h ▸ .inl (List.suffix_cons _ _).isInfix
  | slice elem =>
    exact List.mem_singleton.1 h ▸ .inl ⟨[.leftBracket, .rightBracket], [], by simp [pieces]⟩
  | array n elem =>
    exact List.mem_singleton.1 h ▸ .inl
      ⟨[.leftBracket, .lexeme (kindOf n) n.toList, .rightBracket], [], by simp [pieces]⟩
  | map key value =>
    rcases List.mem_cons.1 h with rfl | h
    · exact .inl ⟨[.key .mapKw, .leftBracket], .rightBracket :: value.pieces qualifier, rfl⟩
    · obtain rfl := List.mem_singleton.1 h
      exact .inl ⟨.key .mapKw :: .leftBracket :: key.pieces qualifier ++ [.rightBracket], [],
        by simp [pieces]⟩
  | chan direction elem => exact List.mem_singleton.1 h ▸ .inl (infix_chan _ _ _)
  | func signature => exact (Signature.shows_of_mem h).mono (List.suffix_cons _ _).isInfix
  | interface body =>
    obtain ⟨methods, embeds⟩ := body
    have hbody {ps : List Piece} (hps : ps ∈ Method.piecesAll qualifier methods ++
        GoType.piecesAll qualifier embeds) :
        ps <:+: (GoType.interface ⟨methods, embeds⟩).pieces qualifier :=
      (infix_body hps).trans (List.suffix_cons _ _).isInfix
    rw [Method.piecesAll_eq, GoType.piecesAll_eq] at hbody
    rcases List.mem_append.1 h with h | h
    · obtain ⟨m, hm, hs⟩ := List.mem_flatMap.1 h
      refine ((Signature.shows_of_mem hs).mono (List.suffix_cons _ _).isInfix).mono
        (hbody (List.mem_append_left _ (List.mem_map.2 ⟨m, hm, rfl⟩)))
    · exact .inl (hbody (List.mem_append_right _ (List.mem_map_of_mem h)))
  | struct fields =>
    obtain ⟨f, hf, rfl⟩ := List.mem_map.1 h
    refine .inl ((infix_field f.name f.tag _).trans ?_)
    have hmem : fieldPieces f.name (f.type.pieces qualifier) f.tag ∈
        Field.piecesAll qualifier fields := by
      rw [Field.piecesAll_eq]
      exact List.mem_map.2 ⟨f, hf, rfl⟩
    exact (infix_body hmem).trans (List.suffix_cons _ _).isInfix

/-- **A written type shows all that occurs in it.** -/
theorem Shows.of_has {ps : List Piece} {t s : GoType} (h : t.Has s) (hps : Shows qualifier ps t) :
    Shows qualifier ps s := by
  induction h with
  | self t => exact hps
  | inside hc _ ih =>
    refine ih ?_
    rcases hps with hps | ⟨elem, rfl, hps⟩
    · exact (GoType.shows_component hc).mono hps
    · exact List.mem_singleton.1 hc ▸ .inl hps

/-- **The length of an array is shown as it is.** -/
theorem Shows.length {ps : List Piece} {n : String} {elem : GoType}
    (h : Shows qualifier ps (.array n elem)) : ("[" ++ n ++ "]").toList <:+: textOf ps := by
  rcases h with ⟨before, after, rfl⟩ | ⟨_, ⟨⟩, -⟩
  exact ⟨textOf before, textOf (elem.pieces qualifier ++ after), by simp [GoType.pieces]⟩

/-! ### Names in a written type

The binders are the names of parameters, results, fields and methods, at any depth. They are there to be
told from names that refer to something. -/

/-- The names among pieces. -/
def namesOf (ps : List Piece) : List String :=
  ((lexemes ps).filter (·.kind = .identifier)).map Word.text

@[simp] theorem namesOf_nil : namesOf [] = [] := rfl

/-- The names of pieces in a row are collected one after the other. -/
@[simp] theorem namesOf_append (ps qs : List Piece) :
    namesOf (ps ++ qs) = namesOf ps ++ namesOf qs := by
  simp [namesOf]

@[simp] theorem namesOf_blank (c : Char) (ps : List Piece) :
    namesOf (.blank c :: ps) = namesOf ps := rfl

/-- A name is collected. -/
@[simp] theorem namesOf_name (n : String) (ps : List Piece) :
    namesOf (.name n :: ps) = n :: namesOf ps := by
  simp [namesOf, lexemes]

/-- No lexeme but an identifier is collected. -/
theorem namesOf_lexeme {kind : Kind} (h : kind ≠ .identifier) (t : List Char) (ps : List Piece) :
    namesOf (.lexeme kind t :: ps) = namesOf ps := by
  simp [namesOf, lexemes, h]

/-- A name in joined pieces is in one of the parts, if none is in the separator. -/
theorem mem_namesOf_joined {separator : List Piece} (hseparator : namesOf separator = [])
    {pss : List (List Piece)} {n : String} (h : n ∈ namesOf (joined separator pss)) :
    ∃ ps ∈ pss, n ∈ namesOf ps := by
  induction pss with
  | nil => cases h
  | cons ps pss ih =>
    cases pss with
    | nil => exact ⟨ps, List.mem_cons_self, by simpa [joined] using h⟩
    | cons qs pss =>
      have hsplit : n ∈ namesOf ps ∨ n ∈ namesOf (joined separator (qs :: pss)) := by
        simpa [joined, List.intercalate_cons_cons, hseparator] using h
      rcases hsplit with h | h
      · exact ⟨ps, List.mem_cons_self, h⟩
      · obtain ⟨rs, hrs, hn⟩ := ih h
        exact ⟨rs, List.mem_cons_of_mem _ hrs, hn⟩

/-- A name in a list is in one of its entries. -/
theorem mem_namesOf_list {pss : List (List Piece)} {n : String}
    (h : n ∈ namesOf (listPieces pss)) : ∃ ps ∈ pss, n ∈ namesOf ps := by
  have hseparator : namesOf [.comma, .space] = [] := rfl
  exact mem_namesOf_joined hseparator (by simpa [listPieces, namesOf_lexeme] using h)

/-- A name in a body is in one of its items. -/
theorem mem_namesOf_body {pss : List (List Piece)} {n : String}
    (h : n ∈ namesOf (bodyPieces pss)) : ∃ ps ∈ pss, n ∈ namesOf ps := by
  have hseparator : namesOf [.semicolon, .space] = [] := rfl
  exact mem_namesOf_joined hseparator (by simpa [bodyPieces, namesOf_lexeme] using h)

/-- A name in a parameter is that of the parameter, or in its type. -/
theorem mem_namesOf_param {name n : String} {ps : List Piece}
    (h : n ∈ namesOf (paramPieces name ps)) : n = name ∨ n ∈ namesOf ps := by
  unfold paramPieces at h
  split at h
  · exact .inr h
  · simpa using h

/-- A name in a field is that of the field, or in its type. -/
theorem mem_namesOf_field {name tag : Option String} {n : String} {ps : List Piece}
    (h : n ∈ namesOf (fieldPieces name ps tag)) : name = some n ∨ n ∈ namesOf ps := by
  have htag : namesOf (tag.elim [] fun t => [.space, .lexeme .string t.toList]) = [] := by
    cases tag <;> rfl
  rw [fieldPieces, namesOf_append, htag, List.append_nil, namesOf_append] at h
  refine (List.mem_append.1 h).imp_left fun h => ?_
  cases name with
  | none => cases h
  | some name => simpa [eq_comm] using h

/-- The names in a channel are those in its element type. -/
theorem namesOf_chan (direction : Direction) (nested : Bool) (ps : List Piece) :
    namesOf (chanPieces direction nested ps) = namesOf ps := by
  cases direction <;> cases nested <;> simp [chanPieces, namesOf_lexeme]

/-- A name in the results is in one of them. -/
theorem mem_namesOf_results {results : List Param} {pss : List (List Piece)} {n : String}
    (h : n ∈ namesOf (resultPieces results pss)) : ∃ ps ∈ pss, n ∈ namesOf ps := by
  unfold resultPieces at h
  split at h
  next => exact ⟨_, List.mem_singleton_self _, h⟩
  next => cases h
  next => exact mem_namesOf_list h

/-- The names that a signature gives to its parameters and results. -/
def Signature.binders (s : Signature) : List String :=
  (s.params ++ s.results).map Param.name

/-- The names that a type gives to what it is made of. -/
def GoType.binders : GoType → List String
  | .func s => s.binders
  | .interface body => body.methods.flatMap fun m => m.name :: m.signature.binders
  | .struct fields => fields.filterMap Field.name
  | _ => []

/-- A parameter is written with its name, and the names in its type. -/
theorem HookedParam.mem_namesOf {p : HookedParam} {n : String}
    (h : n ∈ namesOf (p.pieces qualifier)) :
    n = p.name ∨ n ∈ namesOf (p.type.pieces qualifier) := by
  obtain ⟨name, type, tail⟩ := p
  refine (mem_namesOf_param h).imp_right fun h => ?_
  cases tail with
  | false => cases type <;> exact h
  | true => cases type <;> exact h

/-- A name in a signature is bound by it, or in one of its types. -/
theorem Signature.mem_namesOf {s : Signature} {n : String} (h : n ∈ namesOf (s.pieces qualifier)) :
    n ∈ s.binders ∨ ∃ t ∈ s.types, n ∈ namesOf (t.pieces qualifier) := by
  have hpart {p : Param} (hp : p ∈ s.params ++ s.results)
      (hn : n = p.name ∨ n ∈ namesOf (p.type.pieces qualifier)) :
      n ∈ s.binders ∨ ∃ t ∈ s.types, n ∈ namesOf (t.pieces qualifier) := by
    rcases hn with rfl | hn
    · exact .inl (List.mem_map_of_mem hp)
    · exact .inr ⟨p.type, List.mem_map_of_mem hp, hn⟩
  rw [Signature.pieces_eq, namesOf_append] at h
  rcases List.mem_append.1 h with h | h
  · obtain ⟨ps, hps, hn⟩ := mem_namesOf_list h
    obtain ⟨p, hp, rfl⟩ := List.mem_map.1 hps
    exact hpart (List.mem_append_left _ (mem_of_hookedParams hp).1) (HookedParam.mem_namesOf hn)
  · obtain ⟨ps, hps, hn⟩ := mem_namesOf_results h
    obtain ⟨p, hp, rfl⟩ := List.mem_map.1 hps
    exact hpart (List.mem_append_right _ hp) (mem_namesOf_param hn)

/-- **What accounts for a name** in a type that is written in the package at `destination`, in a file
with these imports. The names of a length are accounted for by standing in it. -/
inductive Accounted (destination : String) (imports : Paths) : GoType → String → Prop
  | predeclared {n : String} (h : n ∈ predeclared) : Accounted destination imports (.basic n) n
  | own {package : PackageId} {n : String} (h : package.path = destination) :
    Accounted destination imports (.named package n) n
  | imported {package : PackageId} {n : String} (h : package.path ∈ imports) :
    Accounted destination imports (.named package n) n
  | qualifier {package : PackageId} {n : String} (h : package.path ∈ imports) :
    Accounted destination imports (.named package n) package.name
  | bound {t : GoType} {n : String} (h : n ∈ t.binders) : Accounted destination imports t n
  | length {n : String} {elem : GoType} : Accounted destination imports (.array n elem) n

section

variable {destination n : String} {imports : Paths}

/-- The name of a declared type, and that of its package, are accounted for if the package is
imported. -/
theorem accounted_of_mem_named {package : PackageId} {name : String}
    (hpackage : package.path = destination ∨ package.path ∈ imports)
    (h : n ∈ namesOf ((GoType.named package name).pieces (shortIn destination))) :
    Accounted destination imports (.named package name) n := by
  rw [GoType.pieces, shortIn] at h
  unfold qualifiedPieces at h
  split at h
  next hpath =>
    obtain rfl : n = name := by simpa using h
    exact .own hpath
  next hpath =>
    have himported := hpackage.resolve_left hpath
    split at h
    next =>
      obtain rfl : n = name := by simpa using h
      exact .imported himported
    next =>
      have hn : n = package.name ∨ n = name := by simpa [namesOf_lexeme] using h
      rcases hn with rfl | rfl
      · exact .qualifier himported
      · exact .imported himported

/-- A name in a type is accounted for by the type itself, or it is a name in a component. -/
theorem accounted_or_component {length : String → Prop} {t : GoType}
    (ht : t.Proper (fun package _ => package.path = destination ∨ package.path ∈ imports) length)
    (h : n ∈ namesOf (t.pieces (shortIn destination))) :
    Accounted destination imports t n ∨
      ∃ c ∈ t.components, n ∈ namesOf (c.pieces (shortIn destination)) := by
  cases t with
  | basic name =>
    obtain rfl : n = name := by simpa [GoType.pieces] using h
    exact .inl (.predeclared ht)
  | named package name => exact .inl (accounted_of_mem_named ht h)
  | pointer elem | slice elem => exact .inr ⟨elem, List.mem_singleton_self _, h⟩
  | array length elem =>
    -- a length counts as a name if its first token is one
    have hn : n = length ∨ n ∈ namesOf (elem.pieces (shortIn destination)) := by
      by_cases hkind : kindOf length = .identifier
      · simpa [GoType.pieces, namesOf_lexeme, hkind] using h
      · exact .inr (by simpa [GoType.pieces, namesOf_lexeme, hkind] using h)
    rcases hn with rfl | hn
    · exact .inl .length
    · exact .inr ⟨elem, List.mem_singleton_self _, hn⟩
  | map key value =>
    have hn : n ∈ namesOf (key.pieces (shortIn destination)) ∨
        n ∈ namesOf (value.pieces (shortIn destination)) := by
      simpa [GoType.pieces, namesOf_lexeme] using h
    rcases hn with hn | hn
    · exact .inr ⟨key, by simp [GoType.components], hn⟩
    · exact .inr ⟨value, by simp [GoType.components], hn⟩
  | chan direction elem =>
    rw [GoType.pieces, namesOf_chan] at h
    exact .inr ⟨elem, List.mem_singleton_self _, h⟩
  | func signature => exact (Signature.mem_namesOf h).imp_left .bound
  | interface body =>
    obtain ⟨methods, embeds⟩ := body
    obtain ⟨ps, hps, hn⟩ := mem_namesOf_body h
    rw [Method.piecesAll_eq, GoType.piecesAll_eq] at hps
    rcases List.mem_append.1 hps with hps | hps
    · obtain ⟨m, hm, rfl⟩ := List.mem_map.1 hps
      have hbound (hb : n ∈ m.name :: m.signature.binders) :
          Accounted destination imports (.interface ⟨methods, embeds⟩) n :=
        .bound (List.mem_flatMap.2 ⟨m, hm, hb⟩)
      rw [namesOf_name] at hn
      rcases List.mem_cons.1 hn with rfl | hn
      · exact .inl (hbound List.mem_cons_self)
      · refine (Signature.mem_namesOf hn).imp (fun hn => hbound (List.mem_cons_of_mem _ hn)) ?_
        rintro ⟨s, hs, hn⟩
        exact ⟨s, List.mem_append_left _ (List.mem_flatMap.2 ⟨m, hm, hs⟩), hn⟩
    · obtain ⟨s, hs, rfl⟩ := List.mem_map.1 hps
      exact .inr ⟨s, List.mem_append_right _ hs, hn⟩
  | struct fields =>
    obtain ⟨ps, hps, hn⟩ := mem_namesOf_body h
    rw [Field.piecesAll_eq] at hps
    obtain ⟨f, hf, rfl⟩ := List.mem_map.1 hps
    rcases mem_namesOf_field hn with hname | hn
    · exact .inl (.bound (List.mem_filterMap.2 ⟨f, hf, hname⟩))
    · exact .inr ⟨f.type, List.mem_map_of_mem hf, hn⟩

/-- **Every name in a type is accounted for**, if the packages of its declared types are imported. -/
theorem exists_accounted {length : String → Prop} {t : GoType}
    (ht : t.WellFormed (fun package _ => package.path = destination ∨
      package.path ∈ imports) length)
    (h : n ∈ namesOf (t.pieces (shortIn destination))) :
    ∃ s, t.Has s ∧ Accounted destination imports s n := by
  induction t using GoType.componentInduction with
  | h t ih =>
    rcases accounted_or_component ht.proper h with haccounted | ⟨c, hc, hn⟩
    · exact ⟨t, .self t, haccounted⟩
    · obtain ⟨s, hs, haccounted⟩ := ih c hc (ht.component hc) hn
      exact ⟨s, .inside hc hs, haccounted⟩

end

/-! ### The arguments of a generated file -/

/-- Lists with the same images, element by element. -/
theorem forall₂_of_map_eq {α β γ : Type} {f : α → γ} {g : β → γ} {R : α → β → Prop} {as : List α}
    {bs : List β} (h : bs.map g = as.map f) (hR : ∀ a ∈ as, ∀ b, g b = f a → R a b) :
    List.Forall₂ R as bs := by
  induction as generalizing bs with
  | nil =>
    obtain rfl : bs = [] := by simpa using h
    exact .nil
  | cons a as ih =>
    obtain ⟨b, bs, rfl⟩ : ∃ b others, bs = b :: others := by
      cases bs with
      | nil => cases h
      | cons b bs => exact ⟨b, bs, rfl⟩
    obtain ⟨hb, hbs⟩ := List.cons_eq_cons.1 h
    exact .cons (hR a List.mem_cons_self b hb)
      (ih hbs fun a ha => hR a (List.mem_cons_of_mem _ ha))

/-- **What stands in the arguments of a generated file.** The lengths of arrays, at every depth, are
shown as they are; every other name is bound by the argument itself, or predeclared, or declared in
the package of the file, or it belongs to a package that the file imports. -/
theorem arguments_of_ofInterface {path interface : String} {sources : List SourceText}
    {pkg : Package} {destination : PackageId} {config : Config} {t : HookFile}
    (hpkg : Package.ofSources path sources = .ok pkg)
    (hplan : HookFile.ofInterface pkg interface destination config = .ok t) :
    ∃ method, pkg.extract interface = .ok method ∧
      List.Forall₂ (fun p arg =>
          arg.toList = textOf (p.pieces (shortIn destination.path)) ∧
          (∀ n elem, p.type.Has (.array n elem) → ("[" ++ n ++ "]").toList <:+: arg.toList) ∧
          ∀ n ∈ namesOf (p.pieces (shortIn destination.path)), n = p.name ∨
            ∃ s, p.type.Has s ∧ Accounted destination.path t.imports s n)
        (forwarded 0 method.params) t.declarationArgs := by
  obtain ⟨name, files, hloads, rfl⟩ := Package.ofSources_eq_ok.1 hpkg
  obtain ⟨method, hmethod, hplan⟩ := HookFile.ofInterface_eq_ok.1 hplan
  have hsettles := HookFile.settles_of_ofMethod hplan
  obtain ⟨-, m, honly, -, rfl⟩ := Package.extract_eq_ok.1 hmethod
  refine ⟨_, hmethod, forall₂_of_map_eq hsettles.declarationArgs fun p hp arg harg => ?_⟩
  have hmem := type_mem_of_forwarded hp
  have htype : p.type.WellFormed (fun package _ => package.path = destination.path ∨
      package.path ∈ t.imports) fun _ => True := by
    have hdeclared : p.type ∈ m.signature.types := by
      rw [type_hookedParams] at hmem
      exact Signature.mem_types.2 (.inl (List.mem_map.1 hmem))
    refine ((hloads.wellTyped.onlyMethod honly).types _ hdeclared).imp
      (fun package n hhas _ => ?_) fun _ _ _ _ => trivial
    by_cases hpath : package.path = destination.path
    · exact .inl hpath
    · exact .inr ((hsettles.imports _).2 ⟨hpath, .inl ⟨package, n, ⟨p.type, hmem, hhas⟩, rfl⟩⟩)
  refine ⟨harg, fun n elem hhas => ?_, fun n hn => ?_⟩
  · rw [harg]
    exact (p.shows_type.of_has hhas).length
  · exact (HookedParam.mem_namesOf hn).imp_right (exists_accounted htype)

/-- A package with an interface whose method takes arrays with constants for lengths, one of the
package itself and one of an import. -/
def coilSources : List SourceText := [
  ⟨"coil.go", "package coil\nimport \"m/wire\"\nconst Turns = 4\n" ++
    "type Coil interface \x7b Wind(x [Turns]int, y map[string][wire.Gauge]bool) \x7d\n"⟩]

/-- A hook for `Coil` in another package. -/
def motorConfig : Config where
  source := ⟨"./coil", "Coil"⟩
  destination := ⟨"./motor", "Coils"⟩

/-- The lengths of `Wind` come into the arguments as they were written, and all names beside them are
accounted for. -/
theorem arguments_of_coilSources :
    ∃ pkg t, Package.ofSources "m/coil" coilSources = .ok pkg ∧
      HookFile.ofInterface pkg "Coil" ⟨"m/motor", "motor"⟩ motorConfig = .ok t ∧
      ∃ method, pkg.extract "Coil" = .ok method ∧
        List.Forall₂ (fun p arg =>
            arg.toList = textOf (p.pieces (shortIn "m/motor")) ∧
            (∀ n elem, p.type.Has (.array n elem) → ("[" ++ n ++ "]").toList <:+: arg.toList) ∧
            ∀ n ∈ namesOf (p.pieces (shortIn "m/motor")), n = p.name ∨
              ∃ s, p.type.Has s ∧ Accounted "m/motor" t.imports s n)
          (forwarded 0 method.params) t.declarationArgs := by
  obtain ⟨pkg, method, t, hpkg, hmethod, hplan, -⟩ := exists_plan_of_check "m/coil" "Coil"
    coilSources ⟨"m/motor", "motor"⟩ motorConfig (fun _ _ _ => true) (by decide) (by
      simp only [coilSources, List.map_cons, List.map_nil, SourceText.chars, String.toList_append]
      repeat rw [String.toList_ofList]
      decide +kernel)
  have hplan := HookFile.ofInterface_eq_ok.2 ⟨method, hmethod, hplan⟩
  exact ⟨pkg, t, hpkg, hplan, arguments_of_ofInterface hpkg hplan⟩

/-- **Constants in lengths are not qualified**, and the packages that they belong to need not be
imported. -/
theorem lengths_of_coilSources :
    ∃ pkg t, Package.ofSources "m/coil" coilSources = .ok pkg ∧ pkg.id = ⟨"m/coil", "coil"⟩ ∧
      (∃ object, pkg.lookup? "Turns" = some object ∧ object.kind = .const) ∧
      HookFile.ofInterface pkg "Coil" ⟨"m/motor", "motor"⟩ motorConfig = .ok t ∧
      t.declarationArgs = ["x [Turns]int", "y map[string][wire.Gauge]bool"] ∧
      t.imports = ["m/coil"] := by
  obtain ⟨pkg, method, t, hpkg, hmethod, hplan, hcheck⟩ := exists_plan_of_check "m/coil" "Coil"
    coilSources ⟨"m/motor", "motor"⟩ motorConfig
    (fun pkg _ t => decide (pkg.id = ⟨"m/coil", "coil"⟩ ∧
        t.declarationArgs = ["x [Turns]int", "y map[string][wire.Gauge]bool"] ∧
        t.imports = ["m/coil"]) &&
      (pkg.lookup? "Turns").any fun object => object.kind == ObjectKind.const)
    (by decide) (by
      simp only [coilSources, List.map_cons, List.map_nil, SourceText.chars, String.toList_append]
      repeat rw [String.toList_ofList]
      decide +kernel)
  obtain ⟨hfacts, hconst⟩ := Bool.and_eq_true_iff.1 hcheck
  obtain ⟨hid, hargs, himports⟩ := of_decide_eq_true hfacts
  obtain ⟨object, hlookup, hkind⟩ := (Option.any_eq_true _ _).1 hconst
  refine ⟨pkg, t, hpkg, hid, ⟨object, hlookup, ?_⟩,
    HookFile.ofInterface_eq_ok.2 ⟨method, hmethod, hplan⟩, hargs, himports⟩
  cases hconst : object.kind with
  | const => rfl
  | _ => rw [hconst] at hkind; cases hkind

end Multicast
